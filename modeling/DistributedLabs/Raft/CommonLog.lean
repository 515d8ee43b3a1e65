import DistributedLabs.Raft.Applier

/-!
# `Raft.CommonLog` — a Raft that works passes

Let every server be given the commands of one log, in order from where it stands, and as snapshots only what a server
has made (`Allowed`). Servers are stopped and started at any moment. `ClusterOk` is what holds in such a run:

* every process has applied the common log up to where it stands (`RsOk`), and what it calls the tester with is part of
  that log (`Call.Ok`);
* what the tester holds is part of it too, and of a process that is connected the tester has `heard` everything up to
  the call it is in;
* the snapshots that have been made, persisted and saved are those of the common log (`Kept`).

So no comparison fails and no index is skipped, and no error is posted (`clusterOk`, and `no_false_alarm` in
`Raft.GoodRun`). There is one exception. An `IngestLog` that the tester executes only after its server has been killed
and started again throws away what the tester has heard from the new process, and the next command looks out of order
(`late_ingest_alarm` in `Raft.LateIngest`).

## The argument

A process goes on in three ways, and each keeps `ProcOk`: an RPC of it returns (`ProcOk.resume`), it is sent a message
(`ProcOk.receive`), or it is started (`procOk_newRfsrv`). The lemmas `heard_…` say that what the tester has heard of it
does not fall behind meanwhile. At the tester, `exec_ok` says what an RPC of such a process changes.

`ClusterOk.setProc` puts a process that has moved back among the others, about which nothing changes; with it every
kind of step is one lemma, `clusterOk_step` has them all, and `clusterOk` is the induction over the run.
-/

namespace DistributedLabs
namespace Raft

open Lib

section Spec

variable {n : Nat} {Cmd : Type} (S : Setup Cmd) (C : Int → Cmd)

/-- What every server has at an index. A snapshot has `nil` at 0. -/
def common (j : Int) : Cmd := if 0 < j then C j else S.nil

/-- Where a server stands after a step. -/
def SrvEvent.moves (i : Fin n) (pos : Int) : SrvEvent n Cmd → Int
  | .start i' index => if i' = i then index else pos
  | .deliver i' m =>
      if i' = i then
        if m.snapshotValid then m.snapshotIndex else if m.commandValid then m.cmd.commandIndex else pos
      else pos
  | _ => pos

/-- The index up to which the process of a server has been given the log. -/
def position (tr : List (SrvEvent n Cmd)) (i : Fin n) : Int := tr.foldl (SrvEvent.moves i) 0

/-- What a Raft that works does after a run. -/
def Allowed (tr : List (SrvEvent n Cmd)) : SrvEvent n Cmd → Prop
  | .deliver i m =>
      (m.snapshotValid = true → ∃ j data, m.snapshot = some data ∧ .snapshot j m.snapshotIndex data ∈ tr) ∧
      (m.snapshotValid = false → m.commandValid = true → m.cmd = ⟨C (position tr i + 1), position tr i + 1⟩) ∧
      (m.snapshotValid = true → m.commandValid = false)
  | .persist _ data => data = [] ∨ ∃ j index, .snapshot j index data ∈ tr
  | _ => True

/-- Raft gives every server the one log. -/
def OneLog (tr : List (SrvEvent n Cmd)) : Prop := ∀ pre e post, tr = pre ++ e :: post → Allowed C pre e

/-- Every `IngestLog` is executed while its server waits for it, or not at all. -/
def NoLateIngest (tr : List (SrvEvent n Cmd)) : Prop := ∀ i xlog err ok, .late i (.ingestLog xlog) err ok ∉ tr

variable {C}

theorem oneLog_snoc {tr : List (SrvEvent n Cmd)} {e : SrvEvent n Cmd} :
    OneLog C (tr ++ [e]) ↔ OneLog C tr ∧ Allowed C tr e := by
  constructor
  · intro h
    refine ⟨fun pre x post htr => ?_, h tr e [] rfl⟩
    refine h pre x (post ++ [e]) ?_
    rw [htr, List.append_assoc, List.cons_append]
  · rintro ⟨hbefore, hlast⟩ pre x post htr
    rcases snoc_eq_append_cons htr with ⟨rfl, rfl, _⟩ | ⟨post', htr', _⟩
    · exact hlast
    · exact hbefore pre x post' htr'

theorem position_snoc (tr : List (SrvEvent n Cmd)) (e : SrvEvent n Cmd) (i : Fin n) :
    position (tr ++ [e]) i = e.moves i (position tr i) := by
  unfold position
  rw [List.foldl_append, List.foldl_cons, List.foldl_nil]

end Spec

/-! ## One process -/

section Process

variable {Cmd : Type} (S : Setup Cmd) (C : Int → Cmd)

/-- A log that is part of the common one. -/
def Common (log : Log Cmd) : Prop := ∀ j v, log j = some v → v = common S C j

/-- A log that is the common one up to an index. -/
def UpTo (log : Log Cmd) (k : Int) : Prop := ∀ j, 1 ≤ j → j ≤ k → log j = some (C j)

/-- The common log up to an index, and the snapshot of it. -/
def snapshotLog (k : Int) : List Cmd := Log.xlog S.nil (fun j => some (common S C j)) k

/-- The snapshot of the common log up to an index. -/
def snapshotAt (k : Int) : Bytes := S.codec.encode k (snapshotLog S C k)

/-- What a persister may hold. -/
def Kept (data : Bytes) : Prop := data = [] ∨ ∃ k, 1 ≤ k ∧ data = snapshotAt S C k

/-- The server has applied the common log up to an index. -/
structure RsOk (rs : Rfsrv Cmd) (k : Int) : Prop where
  applied : rs.lastApplied = k
  common : Common S C rs.log
  upTo : UpTo C rs.log k

/-- What a server calls the tester with. -/
def Call.Ok : Call Cmd → Prop
  | .checkLogs m => 1 ≤ m.commandIndex ∧ m.command = C m.commandIndex
  | .ingestLog xlog => Common S C xlog
  | .applyErr _ => False

/-- An index is applied when it has been checked. -/
def Pc.applied (pos : Int) : Pc Cmd → Int
  | .checkLogs _ => pos - 1
  | _ => pos

/-- An error is posted only if the connection is closed, and goes nowhere. -/
def Proc.PcOk (pos : Int) (p : Proc Cmd) : Prop :=
  match p.pc with
  | .recv => True
  | .checkLogs m => m = ⟨C pos, pos⟩ ∧ 1 ≤ pos ∧
      ∀ err ok, p.rpc = .done err ok → p.closed = false → err = "" ∧ (1 < pos → ok = true)
  | .snapshot index err => index = pos ∧ 1 ≤ pos ∧ S.snapshot = true ∧ (p.closed = false → err = "")
  | .ingestLog err => err = "" ∧ S.snapshot = true
  | .applyErr _ fatal => p.closed = true ∧ p.rpc = .unsent ∧ fatal = false
  | .exited => False

/-- What is persisted, and the copy that the tester takes of it, are snapshots of the common log. -/
structure DiskOk (p : Proc Cmd) : Prop where
  persister : Kept S C p.persister
  copy : ∀ data, p.copy = some data → Kept S C data

/-- The invariant of one process, which has been given the log up to `pos`. -/
structure ProcOk (pos : Int) (p : Proc Cmd) : Prop where
  nonneg : 0 ≤ pos
  pc : p.PcOk S C pos
  rs : S.snapshot = true → RsOk S C p.rs (p.pc.applied pos)
  disk : DiskOk S C p

/-- What the tester has heard of the process. -/
def Proc.heard (pos : Int) (p : Proc Cmd) : Int :=
  match p.pc, p.rpc with
  | .checkLogs _, .done _ _ => pos
  | .checkLogs _, _ => pos - 1
  | .ingestLog _, .done _ _ => pos
  | .ingestLog _, _ => 0
  | _, _ => pos

end Process

section Snapshots

variable {Cmd : Type} {S : Setup Cmd} {C : Int → Cmd}

theorem common_pos {j : Int} (hj : 1 ≤ j) : common S C j = C j := if_pos (by omega)

/-- A log that goes through a snapshot comes out with the entries up to the index, and `nil` for those it lacks. -/
theorem ofList_xlog {nil : Cmd} {log : Log Cmd} {k j : Int} :
    Log.ofList (Log.xlog nil log k) j = if 0 ≤ j ∧ j ≤ k then some ((log j).getD nil) else none := by
  unfold Log.ofList Log.xlog
  by_cases hj : 0 ≤ j
  · rw [if_pos hj, List.getElem?_map]
    by_cases hk : j ≤ k
    · rw [List.getElem?_range (by omega), if_pos ⟨hj, hk⟩, Option.map_some, Int.toNat_of_nonneg hj]
    · rw [List.getElem?_eq_none (by rw [List.length_range]; omega), if_neg (fun h => hk h.2), Option.map_none]
  · rw [if_neg hj, if_neg (fun h => hj h.1)]

/-- A snapshot of the common log is taken over as it is. -/
theorem ingestSnap_snapshotAt (me : Nat) (rs : Rfsrv Cmd) {k index : Int} (hindex : index = -1 ∨ index = k) :
    rs.ingestSnap S.codec me (some (snapshotAt S C k)) index = (⟨k, Log.ofList (snapshotLog S C k)⟩, "") := by
  have hmatch : ¬ (index ≠ -1 ∧ index ≠ k) := by
    rintro ⟨h, h'⟩
    exact hindex.elim h h'
  simp only [Rfsrv.ingestSnap, snapshotAt, S.codec.decode_encode]
  rw [if_neg hmatch]

theorem rsOk_snapshot (k : Int) : RsOk S C ⟨k, Log.ofList (snapshotLog S C k)⟩ k := by
  unfold snapshotLog
  refine ⟨rfl, fun j v hv => ?_, fun j hj hjk => ?_⟩
  · dsimp only at hv
    rw [ofList_xlog, Option.getD_some] at hv
    split at hv
    · exact (Option.some.inj hv).symm
    · cases hv
  · dsimp only
    rw [ofList_xlog, if_pos ⟨by omega, hjk⟩, Option.getD_some, common_pos hj]

/-- A server that has applied the common log makes its snapshot. -/
theorem RsOk.snapshotAt {rs : Rfsrv Cmd} {k : Int} (h : RsOk S C rs k) :
    S.codec.encode k (rs.log.xlog S.nil k) = snapshotAt S C k := by
  unfold Raft.snapshotAt snapshotLog Log.xlog
  refine congrArg _ (List.map_congr_left (fun j hj => ?_))
  have hjk : (j : Int) ≤ k := by
    have := List.mem_range.mp hj
    omega
  rw [Option.getD_some]
  by_cases h0 : 1 ≤ (j : Int)
  · rw [h.upTo j h0 hjk, common_pos h0, Option.getD_some]
  · cases hentry : rs.log j with
    | none => exact (if_neg (by omega)).symm
    | some v => exact h.common j v hentry

/-- The next command. -/
theorem RsOk.next {rs : Rfsrv Cmd} {k : Int} (h : RsOk S C rs (k - 1)) (hk : 1 ≤ k) :
    RsOk S C ⟨k, Function.update rs.log k (some (C k))⟩ k where
  applied := rfl
  common j v hv := by
    rcases update_cases hv with ⟨rfl, hnew⟩ | ⟨_, hold⟩
    · rw [common_pos hk, Option.some.inj hnew]
    · exact h.common j v hold
  upTo j hj hjk := by
    by_cases heq : j = k
    · rw [heq]
      exact Function.update_self ..
    · exact (Function.update_of_ne heq ..).trans (h.upTo j hj (by omega))

end Snapshots

section ProcessSteps

variable {Cmd : Type} {S : Setup Cmd} {C : Int → Cmd} {p : Proc Cmd} {pos : Int} {err : String}

theorem post_closed : (p.post err).closed = p.closed := by
  unfold Proc.post
  split <;> rfl

theorem apply_closed {m : ApplyMsg Cmd} : (p.apply m err).closed = p.closed := by
  unfold Proc.apply
  split
  · rfl
  · exact post_closed

theorem DiskOk.goto (h : DiskOk S C p) (rs : Rfsrv Cmd) (pc : Pc Cmd) : DiskOk S C ({ p with rs := rs }.goto pc) :=
  ⟨h.persister, h.copy⟩

/-- At the end of the loop's body, with an error only if nobody can hear it. -/
theorem procOk_post (hpos : 0 ≤ pos) (herr : p.closed = false → err = "") (hdisk : DiskOk S C p)
    (hrs : S.snapshot = true → RsOk S C p.rs pos) : ProcOk S C pos (p.post err) := by
  unfold Proc.post
  split
  · rename_i hne
    have hclosed : p.closed = true := by
      by_contra hopen
      exact hne (herr (Bool.eq_false_iff.mpr hopen))
    exact ⟨hpos, ⟨hclosed, if_pos hclosed, rfl⟩, hrs, hdisk.goto _ _⟩
  · exact ⟨hpos, trivial, hrs, hdisk.goto _ _⟩

theorem procOk_apply (hpos : 1 ≤ pos) (herr : p.closed = false → err = "") (hdisk : DiskOk S C p)
    (hsnap : S.snapshot = true) (hrs : RsOk S C p.rs (pos - 1)) : ProcOk S C pos (p.apply ⟨C pos, pos⟩ err) := by
  unfold Proc.apply
  split
  · exact ⟨by omega, ⟨rfl, hpos, hsnap, herr⟩, fun _ => hrs.next hpos, hdisk.goto _ _⟩
  · exact procOk_post (by omega) herr ⟨hdisk.persister, hdisk.copy⟩ (fun _ => hrs.next hpos)

/-- An RPC returns: with the tester's answer, or any way it likes if the connection is closed. -/
theorem ProcOk.resume (h : ProcOk S C pos p) (me : Nat) {ok : Bool}
    (hanswer : p.closed = false → p.rpc = .done err ok) : ProcOk S C pos (p.resume S me err ok) := by
  have hok := h.pc
  unfold Proc.PcOk at hok
  unfold Proc.resume
  cases hpc : p.pc with
  | recv => exact h
  | snapshot index err' => exact h
  | exited =>
      rw [hpc] at hok
      exact hok.elim
  -- the error has gone nowhere, since the connection is closed, and the loop goes on
  | applyErr err' fatal =>
      rw [hpc] at hok
      obtain ⟨hclosed, _, rfl⟩ := hok
      refine ⟨h.nonneg, trivial, fun hs => ?_, h.disk.goto _ _⟩
      have hrs := h.rs hs
      rwa [hpc] at hrs
  | ingestLog err' =>
      rw [hpc] at hok
      refine procOk_post h.nonneg (fun _ => hok.1) ⟨h.disk.persister, h.disk.copy⟩ (fun hs => ?_)
      have hrs := h.rs hs
      rwa [hpc] at hrs
  | checkLogs m =>
      rw [hpc] at hok
      obtain ⟨rfl, hpos, hans⟩ := hok
      -- over an open connection the answer is the tester's, which has no objection
      have hgood : p.closed = false → err = "" ∧ (1 < pos → ok = true) := fun hopen => hans _ _ (hanswer hopen) hopen
      dsimp only
      by_cases hs : S.snapshot = true
      · have hrs := h.rs hs
        rw [hpc] at hrs
        rw [if_pos hs]
        refine procOk_apply hpos (fun hopen => ?_) h.disk hs hrs
        obtain ⟨herr, hprev⟩ := hgood hopen
        rw [if_neg, herr]
        rintro ⟨_, hlt, hno⟩
        exact absurd (hprev hlt) (by rw [hno]; exact Bool.false_ne_true)
      · rw [if_neg hs]
        refine procOk_post h.nonneg (fun hopen => ?_) h.disk (fun hs' => absurd hs' hs)
        obtain ⟨herr, hprev⟩ := hgood hopen
        rw [if_neg, herr]
        rintro ⟨hlt, hno⟩
        exact absurd (hprev hlt) (by rw [hno]; exact Bool.false_ne_true)

/-! What the tester has heard of a process does not fall behind when the process goes on. -/

theorem heard_checkLogs (p : Proc Cmd) (pos : Int) (m : ApplyMsg Cmd) :
    (p.goto (.checkLogs m)).heard pos = pos - 1 := by
  unfold Proc.goto Proc.heard
  cases p.closed <;> rfl

theorem heard_ingestLog (p : Proc Cmd) (pos : Int) (err : String) : (p.goto (.ingestLog err)).heard pos = 0 := by
  unfold Proc.goto Proc.heard
  cases p.closed <;> rfl

theorem heard_post (p : Proc Cmd) (pos : Int) (err : String) : (p.post err).heard pos = pos := by
  unfold Proc.post
  split <;> rfl

theorem heard_apply (p : Proc Cmd) (pos : Int) (m : ApplyMsg Cmd) (err : String) :
    (p.apply m err).heard pos = pos := by
  unfold Proc.apply
  split
  · rfl
  · exact heard_post ..

theorem resume_closed (S : Setup Cmd) (me : Nat) (ok : Bool) : (p.resume S me err ok).closed = p.closed := by
  unfold Proc.resume
  split
  · split
    · exact apply_closed
    · exact post_closed
  · exact post_closed
  · split <;> rfl
  · rfl

theorem heard_done {ok : Bool} (hdone : p.rpc = .done err ok) : p.heard pos = pos := by
  unfold Proc.heard
  rw [hdone]
  cases p.pc <;> rfl

theorem heard_resume (S : Setup Cmd) (me : Nat) {ok : Bool} (hdone : p.rpc = .done err ok) :
    (p.resume S me err ok).heard pos = pos := by
  unfold Proc.resume
  split
  · by_cases hs : S.snapshot = true
    · rw [if_pos hs, heard_apply]
    · rw [if_neg hs, heard_post]
  · exact heard_post ..
  · split <;> rfl
  · exact heard_done hdone

theorem heard_recv (hrecv : p.pc = .recv) : p.heard pos = pos := by
  unfold Proc.heard
  rw [hrecv]

theorem receive_closed (S : Setup Cmd) (me : Nat) (m : Msg Cmd) : (p.receive S me m).closed = p.closed := by
  unfold Proc.receive
  split
  · split
    · rfl
    · split
      · split
        · exact apply_closed
        · rfl
      · rfl
  · split <;> rfl

/-- The connection may be closed at any place. -/
theorem ProcOk.pcOk_closed (h : ProcOk S C pos p) : { p with closed := true }.PcOk S C pos := by
  have hok := h.pc
  unfold Proc.PcOk at hok ⊢
  cases hpc : p.pc with
  | recv => trivial
  | checkLogs m =>
      rw [hpc] at hok
      exact ⟨hok.1, hok.2.1, nofun⟩
  | snapshot index err =>
      rw [hpc] at hok
      exact ⟨hok.1, hok.2.1, hok.2.2.1, nofun⟩
  | ingestLog err =>
      rw [hpc] at hok
      exact hok
  | applyErr err fatal =>
      rw [hpc] at hok
      exact ⟨rfl, hok.2⟩
  | exited =>
      rw [hpc] at hok
      exact hok

/-- A message of a Raft that works. -/
theorem ProcOk.receive (h : ProcOk S C pos p) (me : Nat) (hrecv : p.pc = .recv) {m : Msg Cmd}
    (hsnap : m.snapshotValid = true → S.snapshot = true ∧ 1 ≤ m.snapshotIndex
      ∧ m.snapshot = some (snapshotAt S C m.snapshotIndex))
    (hcmd : m.snapshotValid = false → m.commandValid = true → m.cmd = ⟨C (pos + 1), pos + 1⟩) :
    let pos' := if m.snapshotValid then m.snapshotIndex else if m.commandValid then m.cmd.commandIndex else pos
    ProcOk S C pos' (p.receive S me m) ∧ (p.receive S me m).heard pos' ≤ pos := by
  unfold Proc.receive
  dsimp only
  by_cases hsv : m.snapshotValid = true
  · obtain ⟨hs, hindex, hdata⟩ := hsnap hsv
    rw [if_pos hs, if_pos hsv, if_pos hsv, hdata, ingestSnap_snapshotAt me p.rs (Or.inr rfl), heard_ingestLog]
    exact ⟨⟨by omega, ⟨rfl, hs⟩, fun _ => rsOk_snapshot _, h.disk.goto _ _⟩, h.nonneg⟩
  rw [if_neg hsv, if_neg hsv]
  by_cases hcv : m.commandValid = true
  · have hnext := hcmd (Bool.eq_false_iff.mpr hsv) hcv
    have hpos := h.nonneg
    -- the next command is checked before it is applied
    have hcheck : ProcOk S C (pos + 1) (p.goto (.checkLogs ⟨C (pos + 1), pos + 1⟩)) := by
      refine ⟨by omega, ⟨rfl, by omega, fun err ok hdone => ?_⟩, fun hs => ?_, h.disk.goto _ _⟩
      · unfold Proc.goto at hdone
        dsimp only at hdone
        split at hdone <;> cases hdone
      · have hrs := h.rs hs
        rw [hrecv] at hrs
        show RsOk S C p.rs (pos + 1 - 1)
        rwa [Int.add_sub_cancel]
    rw [if_pos hcv, if_pos hcv, if_pos hcv, hnext]
    by_cases hs : S.snapshot = true
    · have hrs := h.rs hs
      rw [hrecv] at hrs
      rw [if_pos hs, if_neg (fun hne => hne (congrArg (· + 1) hrs.applied).symm), heard_checkLogs]
      exact ⟨hcheck, Int.le_of_eq (Int.add_sub_cancel pos 1)⟩
    · rw [if_neg hs, heard_checkLogs]
      exact ⟨hcheck, Int.le_of_eq (Int.add_sub_cancel pos 1)⟩
  · rw [if_neg hcv, if_neg hcv, if_neg hcv, ite_self]
    exact ⟨h, Int.le_of_eq (heard_recv hrecv)⟩

/-- A process that finds a snapshot begins by reporting it. -/
theorem newRfsrv_snapshotAt (hs : S.snapshot = true) (me : Nat) (k : Int) :
    newRfsrv S me (snapshotAt S C k)
      = ⟨⟨k, Log.ofList (snapshotLog S C k)⟩, .ingestLog "", .sent, false, snapshotAt S C k, none, false⟩ := by
  unfold newRfsrv
  rw [if_pos ⟨hs, S.codec.encode_ne _ _⟩, ingestSnap_snapshotAt me _ (Or.inl rfl), if_neg (fun h => h rfl)]
  rfl

/-- A process that is started is right, and the tester has to have heard nothing of it. -/
theorem procOk_newRfsrv (me : Nat) {sn : Bytes} (hsn : Kept S C sn) :
    ProcOk S C (newRfsrv S me sn).rs.lastApplied (newRfsrv S me sn)
      ∧ (newRfsrv S me sn).heard (newRfsrv S me sn).rs.lastApplied ≤ 0 := by
  by_cases hfresh : S.snapshot = true ∧ sn ≠ []
  · obtain ⟨k, hk, rfl⟩ := hsn.resolve_left hfresh.2
    rw [newRfsrv_snapshotAt hfresh.1]
    exact ⟨⟨Int.le_trans (by decide) hk, ⟨rfl, hfresh.1⟩, fun _ => rsOk_snapshot k, hsn, nofun⟩, Int.le_refl _⟩
  · rw [newRfsrv_fresh hfresh]
    refine ⟨⟨Int.le_refl _, trivial, fun _ => ⟨rfl, nofun, fun j hj hj0 => ?_⟩, hsn, nofun⟩, Int.le_refl _⟩
    exact absurd (Int.le_trans hj hj0 : (1 : Int) ≤ 0) (by decide)

end ProcessSteps

/-! ## The tester and its servers -/

section Servers

variable {n : Nat} {Cmd : Type} (S : Setup Cmd) (C : Int → Cmd)

/-- A snapshot is one of the common log. -/
def SrvEvent.SnapOk : SrvEvent n Cmd → Prop
  | .snapshot _ index data => S.snapshot = true ∧ 1 ≤ index ∧ data = snapshotAt S C index
  | _ => True

/-- The invariant of a test in which Raft works. -/
structure ClusterOk (tr : List (SrvEvent n Cmd)) (s : Cluster n Cmd) : Prop where
  snaps : ∀ e ∈ tr, e.SnapOk S C
  quiet : ∀ i, s.applyErr i = ""
  logs : ∀ i, Common S C (s.test.logs i)
  procs : ∀ {i p}, s.proc i = some p → ProcOk S C (position tr i) p
  heard : ∀ {i p}, s.proc i = some p → p.closed = false → UpTo C (s.test.logs i) (p.heard (position tr i))
  saved : ∀ i, Kept S C (s.saved i)
  late : ∀ {i k}, (i, k) ∈ s.late → k.Ok S C

variable {S C}

/-- What a process calls the tester with is part of the common log. -/
theorem ProcOk.call_ok {pos : Int} {p : Proc Cmd} (h : ProcOk S C pos p) {k : Call Cmd} (hk : p.call = some k)
    (hsent : p.rpc = .sent) : k.Ok S C := by
  have hok := h.pc
  unfold Proc.PcOk at hok
  rcases Proc.call_cases hk with ⟨m, hpc, rfl⟩ | ⟨err, hpc, rfl⟩ | ⟨err, fatal, hpc, rfl⟩
  · rw [hpc] at hok
    obtain ⟨rfl, hpos, _⟩ := hok
    exact ⟨hpos, rfl⟩
  · rw [hpc] at hok
    exact (h.rs hok.2).common
  · rw [hpc] at hok
    rw [hok.2.1] at hsent
    cases hsent

section Exec

variable [DecidableEq Cmd] {tr : List (SrvEvent n Cmd)} {s s' : Cluster n Cmd} {i : Fin n} {k : Call Cmd}
  {err : String} {ok : Bool}

/-- The tester finds nothing to object to, and knows one command more. -/
theorem exec_checkLogs {m : ApplyMsg Cmd} (hlogs : ∀ i, Common S C (s.test.logs i)) (hpos : 1 ≤ m.commandIndex)
    (hm : m.command = C m.commandIndex) (hexec : s.exec S i (.checkLogs m) = (s', err, ok)) :
    s' = { s with test := s.test.record i m } ∧ err = "" ∧ ok = (s.test.logs i (m.commandIndex - 1)).isSome
      ∧ ∀ i, Common S C (s'.test.logs i) := by
  obtain ⟨rfl, hret⟩ := Prod.mk.inj hexec
  obtain ⟨herr, hok⟩ := Prod.mk.inj hret
  refine ⟨rfl, ?_, hok.symm, fun i' j v hv => ?_⟩
  · rw [← herr]
    by_contra hne
    obtain ⟨i', old, hold, hdiff⟩ := errMsg_ne.mp hne
    rw [hlogs i' _ _ hold, common_pos hpos, hm] at hdiff
    exact hdiff rfl
  · change (s.test.record i m).logs i' j = some v at hv
    rw [record_logs] at hv
    split at hv
    · rename_i hat
      rw [hat.2, common_pos hpos, ← hm, Option.some.inj hv]
    · exact hlogs i' j v hv

/-- What an RPC changes at the tester. -/
structure ExecOk (s : Cluster n Cmd) (i : Fin n) (k : Call Cmd) (s' : Cluster n Cmd) : Prop where
  applyErr : s'.applyErr = s.applyErr
  proc : s'.proc = s.proc
  saved : s'.saved = s.saved
  late : s'.late = s.late
  logs : ∀ i, Common S C (s'.test.logs i)
  others : ∀ {i'}, i' ≠ i → s'.test.logs i' = s.test.logs i'
  keeps : (∀ xlog, k ≠ .ingestLog xlog) → ∀ {b}, UpTo C (s.test.logs i) b → UpTo C (s'.test.logs i) b

/-- What executing such an RPC does to the tester. -/
theorem exec_ok (hlogs : ∀ i, Common S C (s.test.logs i)) (hk : k.Ok S C) (hexec : s.exec S i k = (s', err, ok)) :
    ExecOk (S := S) (C := C) s i k s' := by
  cases k with
  | applyErr err => exact hk.elim
  | checkLogs m =>
      obtain ⟨rfl, _, _, hlogs'⟩ := exec_checkLogs hlogs hk.1 hk.2 hexec
      refine ⟨rfl, rfl, rfl, rfl, hlogs', fun hne => Function.update_of_ne hne .., fun _ b hb j hj hjb => ?_⟩
      show (s.test.record i m).logs i j = _
      rw [record_logs]
      split
      · rename_i hat
        rw [hk.2, ← hat.2]
      · exact hb j hj hjb
  | ingestLog xlog =>
      obtain ⟨rfl, _⟩ := Prod.mk.inj hexec
      refine ⟨rfl, rfl, rfl, rfl, fun i' j v hv => ?_, fun hne => Function.update_of_ne hne ..,
        fun hno => absurd rfl (hno xlog)⟩
      change (s.test.ingestLog i xlog).logs i' j = some v at hv
      rw [ingestLog_logs] at hv
      split at hv
      · exact hk j v hv
      · exact hlogs i' j v hv

end Exec

section Steps

variable {tr : List (SrvEvent n Cmd)} {s s' : Cluster n Cmd} {e : SrvEvent n Cmd} {i : Fin n} {p p' : Proc Cmd}

theorem ClusterOk.snaps_snoc (h : ClusterOk S C tr s) (hsnap : e.SnapOk S C) : ∀ e' ∈ tr ++ [e], e'.SnapOk S C := by
  intro e' hmem
  rcases List.mem_append.mp hmem with hold | hnew
  · exact h.snaps e' hold
  · exact List.mem_singleton.mp hnew ▸ hsnap

/-- One process moves. -/
theorem ClusterOk.setProc (h : ClusterOk S C tr s) {pos : Int} (hsnap : e.SnapOk S C)
    (hothers : ∀ {i'}, i' ≠ i → ∀ b, e.moves i' b = b) (hmoves : e.moves i (position tr i) = pos)
    (hproc : ProcOk S C pos p')
    (hheard : p'.closed = false → UpTo C (s.test.logs i) (p'.heard pos)) :
    ClusterOk S C (tr ++ [e]) (s.setProc i (some p')) where
  snaps := h.snaps_snoc hsnap
  quiet := h.quiet
  logs := h.logs
  procs {i' q} hq := by
    rw [position_snoc]
    rcases update_cases hq with ⟨rfl, hnew⟩ | ⟨hne, hold⟩
    · rw [hmoves]
      exact Option.some.inj hnew ▸ hproc
    · rw [hothers hne]
      exact h.procs hold
  heard {i' q} hq hopen := by
    rw [position_snoc]
    rcases update_cases hq with ⟨rfl, hnew⟩ | ⟨hne, hold⟩
    · rw [hmoves]
      obtain rfl := Option.some.inj hnew
      exact hheard hopen
    · rw [hothers hne]
      exact h.heard hold hopen
  saved := h.saved
  late := h.late

/-- The process goes on without new messages. -/
theorem ClusterOk.goOn (h : ClusterOk S C tr s) (hp : s.proc i = some p) (hsnap : e.SnapOk S C)
    (hmoves : ∀ i' b, e.moves i' b = b) (hproc : ProcOk S C (position tr i) p')
    (hopen : p'.closed = false → p.closed = false ∧ p'.heard (position tr i) = p.heard (position tr i)) :
    ClusterOk S C (tr ++ [e]) (s.setProc i (some p')) := by
  refine h.setProc hsnap (fun _ => hmoves _) (hmoves i _) hproc (fun hc => ?_)
  obtain ⟨hpc, hheard⟩ := hopen hc
  rw [hheard]
  exact h.heard hp hpc

/-- An RPC that is left behind is still a right one. -/
theorem ClusterOk.abandon (h : ClusterOk S C tr s) (hp : ProcOk S C (position tr i) p) :
    ClusterOk S C tr (s.abandon i p) := by
  unfold Cluster.abandon
  split
  · rename_i hsent
    refine { h with late := fun {i' k} hk => ?_ }
    rcases List.mem_append.mp hk with hold | hnew
    · exact h.late hold
    · rw [Option.mem_toList, Option.map_eq_some_iff] at hnew
      obtain ⟨k', hk', heq⟩ := hnew
      cases heq
      exact hp.call_ok hk' hsent
  · exact h

section Tester

variable [DecidableEq Cmd] {k : Call Cmd} {err : String} {ok : Bool}

/-- What a process has been told when its RPC is executed. -/
theorem ProcOk.told {pos : Int} (h : ProcOk S C pos p) (hk : p.call = some k) (hsent : p.rpc = .sent)
    (hlogs : ∀ i, Common S C (s.test.logs i))
    (hheard : p.closed = false → UpTo C (s.test.logs i) (p.heard pos)) (hexec : s.exec S i k = (s', err, ok)) :
    ProcOk S C pos { p with rpc := .done err ok }
      ∧ (p.closed = false → UpTo C (s'.test.logs i) ({ p with rpc := .done err ok }.heard pos)) := by
  have hok := h.pc
  have hrs := h.rs
  have hpos := h.nonneg
  rw [heard_done rfl]
  unfold Proc.PcOk at hok
  unfold Proc.call at hk
  cases hpc : p.pc with
  | recv => rw [hpc] at hk; cases hk
  | snapshot index err => rw [hpc] at hk; cases hk
  | exited => rw [hpc] at hk; cases hk
  -- an error is posted only over a closed connection, which sends nothing
  | applyErr err' fatal =>
      rw [hpc] at hok
      rw [hok.2.1] at hsent
      cases hsent
  | ingestLog err' =>
      rw [hpc] at hok hk hrs
      cases hk
      obtain ⟨rfl, _⟩ := Prod.mk.inj hexec
      refine ⟨⟨hpos, hok, hrs, h.disk.persister, h.disk.copy⟩, fun _ j hj hjb => ?_⟩
      exact (ingestLog_logs.trans (if_pos rfl)).trans ((hrs hok.2).upTo j hj hjb)
  | checkLogs m =>
      rw [hpc] at hok hk hrs
      obtain ⟨rfl, hpos1, _⟩ := hok
      cases hk
      obtain ⟨rfl, rfl, rfl, _⟩ := exec_checkLogs hlogs hpos1 rfl hexec
      -- the command before this one has been heard, so the tester finds nothing missing
      have hbefore : p.closed = false → UpTo C (s.test.logs i) (pos - 1) := by
        intro hopen
        have hb := hheard hopen
        unfold Proc.heard at hb
        rwa [hpc, hsent] at hb
      refine ⟨⟨hpos, ⟨rfl, hpos1, fun err ok hdone hopen => ?_⟩, hrs, h.disk.persister, h.disk.copy⟩,
        fun hopen j hj hjb => ?_⟩
      · cases hdone
        refine ⟨rfl, fun hlt => ?_⟩
        rw [hbefore hopen (pos - 1) (by omega) (Int.le_refl _)]
        rfl
      · refine record_logs.trans ?_
        split
        · rename_i hat
          rw [hat.2]
        · rename_i hne
          exact hbefore hopen j hj (by
            have hjne : j ≠ pos := fun hj' => hne ⟨rfl, hj'⟩
            omega)

/-- The tester executes an RPC that somebody waits for. -/
theorem ClusterOk.exec (h : ClusterOk S C tr s) (hp : s.proc i = some p) (hk : p.call = some k)
    (hsent : p.rpc = .sent) (hexec : s.exec S i k = (s', err, ok)) :
    ClusterOk S C (tr ++ [.exec i k err ok]) (s'.setProc i (some { p with rpc := .done err ok })) := by
  have hproc := h.procs hp
  have hE : ExecOk s i k s' := exec_ok h.logs (hproc.call_ok hk hsent) hexec
  obtain ⟨hproc', hheard'⟩ := hproc.told hk hsent h.logs (h.heard hp) hexec
  refine ⟨h.snaps_snoc trivial, fun i => ?_, hE.logs, fun {i' q} hq => ?_,
    fun {i' q} hq hopen => ?_, fun i => ?_, fun {i' k'} hk' => ?_⟩
  · exact (congrFun hE.applyErr i).trans (h.quiet i)
  · rw [position_snoc]
    rcases update_cases hq with ⟨rfl, hnew⟩ | ⟨_, hold⟩
    · exact Option.some.inj hnew ▸ hproc'
    · exact h.procs (hE.proc ▸ hold)
  · rw [position_snoc]
    rcases update_cases hq with ⟨rfl, hnew⟩ | ⟨hne, hold⟩
    · obtain rfl := Option.some.inj hnew
      exact hheard' hopen
    · show UpTo C (s'.test.logs i') _
      rw [hE.others hne]
      exact h.heard (hE.proc ▸ hold) hopen
  · exact (congrFun hE.saved i).symm ▸ h.saved i
  · exact h.late (hE.late ▸ hk')

/-- The tester executes an RPC that nobody waits for, which is no `IngestLog`. -/
theorem ClusterOk.lateExec (h : ClusterOk S C tr s) {l₁ l₂ : List (Fin n × Call Cmd)}
    (hlate : s.late = l₁ ++ (i, k) :: l₂) (hno : ∀ xlog, k ≠ .ingestLog xlog)
    (hexec : s.exec S i k = (s', err, ok)) :
    ClusterOk S C (tr ++ [.late i k err ok]) { s' with late := l₁ ++ l₂ } := by
  have hmem : (i, k) ∈ s.late := hlate ▸ List.mem_append_right _ (List.mem_cons_self ..)
  have hE : ExecOk s i k s' := exec_ok h.logs (h.late hmem) hexec
  refine ⟨h.snaps_snoc trivial, fun i => ?_, hE.logs, fun {i' q} hq => ?_,
    fun {i' q} hq hopen => ?_, fun i => ?_, fun {i' k'} hk' => ?_⟩
  · exact (congrFun hE.applyErr i).trans (h.quiet i)
  · rw [position_snoc]
    exact h.procs (hE.proc ▸ hq)
  · rw [position_snoc]
    have hold := h.heard (hE.proc ▸ hq) hopen
    by_cases hi : i' = i
    · subst hi
      exact hE.keeps hno hold
    · show UpTo C (s'.test.logs i') _
      rw [hE.others hi]
      exact hold
  · exact (congrFun hE.saved i).symm ▸ h.saved i
  · refine h.late (i := i') (hlate ▸ ?_)
    rcases List.mem_append.mp hk' with h₁ | h₂
    · exact List.mem_append_left _ h₁
    · exact List.mem_append_right _ (List.mem_cons_of_mem _ h₂)

end Tester

/-- A process is killed, and what was copied of it is saved. -/
theorem ClusterOk.kill (h : ClusterOk S C tr s) (hp : s.proc i = some p) {data : Bytes} (hcopy : p.copy = some data) :
    ClusterOk S C (tr ++ [.kill i])
      { (s.abandon i p).setProc i none with saved := Function.update s.saved i data } := by
  have hproc := h.procs hp
  have hA := h.abandon hproc
  refine ⟨h.snaps_snoc trivial, hA.quiet, hA.logs, fun {i' q} hq => ?_, fun {i' q} hq hopen => ?_,
    fun i' => ?_, hA.late⟩
  · rw [position_snoc]
    rcases update_cases hq with ⟨_, hnew⟩ | ⟨_, hold⟩
    · cases hnew
    · exact hA.procs hold
  · rw [position_snoc]
    rcases update_cases hq with ⟨_, hnew⟩ | ⟨_, hold⟩
    · cases hnew
    · exact hA.heard hold hopen
  · show Kept S C (Function.update s.saved i data i')
    by_cases hi : i' = i
    · rw [hi, Function.update_self]
      exact hproc.disk.copy data hcopy
    · rw [Function.update_of_ne hi]
      exact h.saved i'

theorem kept_of_made (h : ClusterOk S C tr s) {data : Bytes}
    (hdata : data = [] ∨ ∃ j index, .snapshot j index data ∈ tr) : Kept S C data := by
  rcases hdata with rfl | ⟨j, index, hmem⟩
  · exact Or.inl rfl
  · obtain ⟨_, hindex, hsnap⟩ := h.snaps _ hmem
    exact Or.inr ⟨index, hindex, hsnap⟩

section Run

variable [DecidableEq Cmd]

/-- Every step of a Raft that works keeps the invariant, unless it is an `IngestLog` that comes late. -/
theorem clusterOk_step (h : ClusterOk S C tr s) (hstep : SrvStep S s e s') (hallowed : Allowed C tr e)
    (hlate : ∀ i xlog err ok, e ≠ .late i (.ingestLog xlog) err ok) : ClusterOk S C (tr ++ [e]) s' := by
  cases hstep with
  | @start i hp =>
      obtain ⟨hproc, hheard⟩ := procOk_newRfsrv (S := S) (C := C) i (h.saved i)
      refine h.setProc trivial (fun hne b => if_neg hne.symm) (if_pos rfl) hproc (fun _ j hj hjb => ?_)
      -- of a new process the tester has to have heard nothing
      exact absurd (Int.le_trans hj (Int.le_trans hjb hheard)) (by decide)
  | @deliver i p m hp hrecv =>
      have hproc := h.procs hp
      -- a snapshot that Raft sends up was made in the run, hence is one of the common log
      obtain ⟨hsnap, hcmd, _⟩ := hallowed
      obtain ⟨hproc', hheard⟩ := hproc.receive i hrecv (m := m) (fun hsv => by
        obtain ⟨j, data, hdata, hmem⟩ := hsnap hsv
        obtain ⟨hs, hindex, rfl⟩ := h.snaps _ hmem
        exact ⟨hs, hindex, hdata⟩) hcmd
      refine h.setProc trivial (fun hne b => if_neg hne.symm) (if_pos rfl) hproc' (fun hopen => ?_)
      rw [receive_closed] at hopen
      have hbefore := h.heard hp hopen
      rw [heard_recv hrecv] at hbefore
      exact fun j hj hjb => hbefore j hj (Int.le_trans hjb hheard)
  | @exec i p k s' err ok hp hk hsent hexec => exact h.exec hp hk hsent hexec
  | @ret i p err ok hp hdone =>
      refine h.goOn hp trivial (fun _ _ => rfl) ((h.procs hp).resume i (fun _ => hdone)) (fun hopen => ?_)
      rw [resume_closed] at hopen
      exact ⟨hopen, by rw [heard_resume S i hdone, heard_done hdone]⟩
  -- only a closed connection fails, and of its process the tester need not have heard
  | @fail i p k hp hclosed hk =>
      have hproc := h.procs hp
      have hresume : ProcOk S C (position tr i) (p.resume S i "ErrRPC" false) :=
        hproc.resume i (fun hopen => by simp [hclosed] at hopen)
      refine (h.abandon hproc).setProc trivial (fun _ _ => rfl) rfl hresume (fun hopen => ?_)
      rw [resume_closed, hclosed] at hopen
      cases hopen
  | @snapshot i p index err hp hpc =>
      have hproc := h.procs hp
      have hok := hproc.pc
      have hrs := hproc.rs
      unfold Proc.PcOk at hok
      rw [hpc] at hok hrs
      obtain ⟨rfl, hpos, hs, herr⟩ := hok
      refine h.goOn hp ⟨hs, hpos, (hrs hs).snapshotAt⟩ (fun _ _ => rfl)
        (procOk_post hproc.nonneg herr hproc.disk hrs) (fun hopen => ?_)
      rw [post_closed] at hopen
      refine ⟨hopen, ?_⟩
      rw [heard_post]
      unfold Proc.heard
      rw [hpc]
  | @persist i p data hp =>
      have hproc := h.procs hp
      refine h.goOn hp trivial (fun _ _ => rfl) ?_ (fun hopen => ⟨hopen, rfl⟩)
      exact ⟨hproc.nonneg, hproc.pc, hproc.rs, kept_of_made h hallowed, hproc.disk.copy⟩
  | @close i p hp hup =>
      have hproc := h.procs hp
      refine h.goOn hp trivial (fun _ _ => rfl) ?_ (fun hopen => nomatch hopen)
      exact ⟨hproc.nonneg, hproc.pcOk_closed, hproc.rs, hproc.disk.persister, hproc.disk.copy⟩
  | @checkpoint i p hp hclosed =>
      have hproc := h.procs hp
      refine h.goOn hp trivial (fun _ _ => rfl) ?_ (fun hopen => ⟨hopen, rfl⟩)
      refine ⟨hproc.nonneg, hproc.pc, hproc.rs, hproc.disk.persister, fun data hdata => ?_⟩
      exact Option.some.inj hdata ▸ hproc.disk.persister
  | @kill i p data hp hcopy => exact h.kill hp hcopy
  | @late i k l₁ l₂ s' err ok hmem hexec =>
      refine h.lateExec hmem (fun xlog hk => ?_) hexec
      subst hk
      exact hlate _ _ _ _ rfl

theorem clusterOk (hrun : Reaches (rfTest S) tr s) (hone : OneLog C tr) (hlate : NoLateIngest tr) :
    ClusterOk S C tr s := by
  refine Reaches.invariant (P := fun tr s => OneLog C tr → NoLateIngest tr → ClusterOk S C tr s)
    (fun _ _ => ?_) ?_ hrun hone hlate
  · exact ⟨nofun, fun _ => rfl, nofun, nofun, nofun, fun _ => Or.inl rfl, nofun⟩
  · intro tr s e s' _ ih hstep hone hlate
    obtain ⟨hbefore, hallowed⟩ := oneLog_snoc.mp hone
    refine clusterOk_step (ih hbefore (fun i xlog err ok hmem => ?_)) hstep hallowed (fun i xlog err ok he => ?_)
    · exact hlate i xlog err ok (List.mem_append_left _ hmem)
    · exact hlate i xlog err ok (List.mem_append_right _ (List.mem_singleton.mpr he.symm))

/-- Without errors and with one log `nCommitted` only counts. -/
theorem nCommitted_eq (hquiet : ∀ i, s.applyErr i = "") (hlogs : ∀ i, Common S C (s.test.logs i)) {index : Int}
    (hindex : 1 ≤ index) :
    s.nCommitted S index = .ok ((List.finRange n).countP (fun i => (s.test.logs i index).isSome),
      if (List.finRange n).any (fun i => (s.test.logs i index).isSome) then C index else S.nil) := by
  -- the loop, from any number of servers that have been counted
  have hloop : ∀ (l : List (Fin n)) (count : Nat) (cmd : Cmd), (0 < count → cmd = C index) →
      l.foldlM (s.countCommitted S index) (count, cmd)
        = .ok (count + l.countP (fun i => (s.test.logs i index).isSome),
            if l.any (fun i => (s.test.logs i index).isSome) then C index else cmd) := by
    intro l
    induction l with
    | nil => intro count cmd _; rfl
    | cons i l ih =>
        intro count cmd hcmd
        rw [List.foldlM_cons]
        cases hentry : s.test.logs i index with
        | none =>
            have hround : s.countCommitted S index (count, cmd) i = .ok (count, cmd) := by
              simp only [Cluster.countCommitted, hquiet i, hentry, ne_eq, not_true_eq_false, if_false]
            rw [hround]
            show l.foldlM _ _ = _
            rw [ih count cmd hcmd]
            simp [hentry]
        | some v =>
            obtain rfl : v = C index := (hlogs i _ _ hentry).trans (common_pos hindex)
            have hround : s.countCommitted S index (count, cmd) i = .ok (count + 1, C index) := by
              have hsame : ¬ (count > 0 ∧ cmd ≠ C index) := fun h => h.2 (hcmd h.1)
              simp only [Cluster.countCommitted, hquiet i, hentry, ne_eq, not_true_eq_false, if_false]
              rw [if_neg hsame]
            rw [hround]
            show l.foldlM _ _ = _
            rw [ih (count + 1) (C index) (fun _ => rfl)]
            simp [hentry, Nat.add_assoc, Nat.add_comm 1]
  unfold Cluster.nCommitted
  rw [hloop _ 0 S.nil (fun h => absurd h (Nat.lt_irrefl 0)), Nat.zero_add]

end Run

end Steps

end Servers

end Raft
end DistributedLabs
