import DistributedLabs.Raft.Applier

/-!
# `Raft.Exact` — what the verdict means without snapshots

In a test without snapshots in which no server is stopped, an error is posted if and only if it should be: when two
different commands were given for one index, to two servers or to one, or a server was given a command without the one
before it (`verdict_exact`).

The tester judges each command when it is asked about it. As long as it has found no fault, it holds every command it
was asked about, so what it compares with is all there is (`TestOk`). A fault that is found is on its way to `applyErr`
until it is there, and nothing removes it (`PostOk`).

## The argument

* `TestOk.ask`: the tester is asked about one command more. Its answer is a fault exactly if the command is one
  (`TestOk.faulty_iff`), so the faults that have been found are the faults there are.
* `PostOk.deliver`, `PostOk.ask`, `PostOk.post`, `PostOk.ret`: a server takes one step. What it was given it has asked
  about or is about to ask about, and what was found is posted or due.
* `judged` has both after every run. When every server waits for its next message, nothing is left to ask and nothing
  is due, and the verdict can be read off.

Snapshots are left out because a server does not ask about the commands in a snapshot, and stopped servers because a
process may be killed before it has asked.
-/

namespace DistributedLabs
namespace Raft

open Lib

/-! ## What a server was given, and what the tester was asked -/

section Spec

variable {n : Nat} {Cmd : Type}

/-- The command that a server is given by a step. -/
def SrvEvent.given (i : Fin n) : SrvEvent n Cmd → Option (ApplyMsg Cmd)
  | .deliver i' m => if i' = i ∧ m.commandValid = true then some m.cmd else none
  | _ => none

/-- The command that a server asks the tester about in a step. -/
def SrvEvent.asked (i : Fin n) : SrvEvent n Cmd → Option (ApplyMsg Cmd)
  | .exec i' (.checkLogs m) _ _ => if i' = i then some m else none
  | _ => none

/-- The commands a server was given. -/
def givenTo (tr : List (SrvEvent n Cmd)) (i : Fin n) : List (ApplyMsg Cmd) := tr.filterMap (SrvEvent.given i)

/-- The commands a server has asked the tester about. -/
def askedBy (tr : List (SrvEvent n Cmd)) (i : Fin n) : List (ApplyMsg Cmd) := tr.filterMap (SrvEvent.asked i)

/-- No index has two commands. -/
def Same (f : Fin n → List (ApplyMsg Cmd)) : Prop :=
  ∀ i, ∀ m ∈ f i, ∀ j, ∀ m' ∈ f j, m.commandIndex = m'.commandIndex → m.command = m'.command

/-- No command comes before the one at the index below. -/
def InOrder (l : List (ApplyMsg Cmd)) : Prop :=
  ∀ pre m post, l = pre ++ m :: post → 1 < m.commandIndex → ∃ m' ∈ pre, m'.commandIndex = m.commandIndex - 1

theorem inOrder_snoc {l : List (ApplyMsg Cmd)} {m : ApplyMsg Cmd} :
    InOrder (l ++ [m]) ↔ InOrder l ∧ (1 < m.commandIndex → ∃ m' ∈ l, m'.commandIndex = m.commandIndex - 1) := by
  constructor
  · intro h
    refine ⟨fun pre x post hl => ?_, h l m [] rfl⟩
    refine h pre x (post ++ [m]) ?_
    rw [hl, List.append_assoc, List.cons_append]
  · rintro ⟨hbefore, hlast⟩ pre x post hl
    rcases snoc_eq_append_cons hl with ⟨rfl, rfl, _⟩ | ⟨post', hl', _⟩
    · exact hlast
    · exact hbefore pre x post' hl'

/-- One command more agrees with all the others. -/
theorem same_snoc {f g : Fin n → List (ApplyMsg Cmd)} {i : Fin n} {m : ApplyMsg Cmd} (hi : g i = f i ++ [m])
    (hother : ∀ j, j ≠ i → g j = f j) :
    Same g ↔ Same f ∧ ∀ j, ∀ m' ∈ f j, m'.commandIndex = m.commandIndex → m'.command = m.command := by
  have hmem : ∀ j m', m' ∈ g j ↔ m' ∈ f j ∨ (j = i ∧ m' = m) := by
    intro j m'
    by_cases hj : j = i
    · subst hj
      rw [hi, List.mem_append, List.mem_singleton]
      simp only [true_and]
    · rw [hother j hj]
      simp only [hj, false_and, or_false]
  constructor
  · intro h
    refine ⟨fun j a ha j' b hb => h j a ((hmem j a).mpr (Or.inl ha)) j' b ((hmem j' b).mpr (Or.inl hb)), ?_⟩
    exact fun j a ha => h j a ((hmem j a).mpr (Or.inl ha)) i m ((hmem i m).mpr (Or.inr ⟨rfl, rfl⟩))
  · rintro ⟨hold, hnew⟩ j a ha j' b hb hidx
    rcases (hmem j a).mp ha with ha | ⟨_, rfl⟩
    · rcases (hmem j' b).mp hb with hb | ⟨_, rfl⟩
      · exact hold j a ha j' b hb hidx
      · exact hnew j a ha hidx
    · rcases (hmem j' b).mp hb with hb | ⟨_, rfl⟩
      · exact (hnew j' b hb hidx.symm).symm
      · rfl

/-- The tester or the server finds fault with the answer to a `CheckLogs`. -/
def Faulty (m : ApplyMsg Cmd) (errMsg : String) (prevok : Bool) : Prop :=
  errMsg ≠ "" ∨ (1 < m.commandIndex ∧ prevok = false)

/-- A fault has been found with a server. -/
def FaultAt (tr : List (SrvEvent n Cmd)) (i : Fin n) : Prop :=
  ∃ m errMsg prevok, .exec i (.checkLogs m) errMsg prevok ∈ tr ∧ Faulty m errMsg prevok

end Spec

/-! ## The tester -/

section Tester

variable {n : Nat} {Cmd : Type} {S : Setup Cmd} {tr : List (SrvEvent n Cmd)} {t : Test n Cmd} {e : SrvEvent n Cmd}

/-- The tester's part of the invariant: what it holds, and that the faults found are the faults there are. -/
structure TestOk (tr : List (SrvEvent n Cmd)) (t : Test n Cmd) : Prop where
  held : ∀ i k, (t.logs i k).isSome = true ↔ ∃ m ∈ askedBy tr i, m.commandIndex = k
  fair : (∀ i, ¬ FaultAt tr i) ↔ Same (askedBy tr) ∧ ∀ i, InOrder (askedBy tr i)
  kept : (∀ i, ¬ FaultAt tr i) → ∀ i, ∀ m ∈ askedBy tr i, t.logs i m.commandIndex = some m.command

theorem faultAt_snoc {i : Fin n} : FaultAt (tr ++ [e]) i ↔
    FaultAt tr i ∨ ∃ m err ok, e = .exec i (.checkLogs m) err ok ∧ Faulty m err ok := by
  unfold FaultAt
  constructor
  · rintro ⟨m, err, ok, hmem, hf⟩
    rcases List.mem_append.mp hmem with hold | hnew
    · exact Or.inl ⟨m, err, ok, hold, hf⟩
    · exact Or.inr ⟨m, err, ok, (List.mem_singleton.mp hnew).symm, hf⟩
  · rintro (⟨m, err, ok, hmem, hf⟩ | ⟨m, err, ok, rfl, hf⟩)
    · exact ⟨m, err, ok, List.mem_append_left _ hmem, hf⟩
    · exact ⟨m, err, ok, List.mem_append_right _ (List.mem_singleton_self _), hf⟩

/-- The tester is not asked. -/
theorem TestOk.keep (h : TestOk tr t) (he : ∀ i m err ok, e ≠ .exec i (.checkLogs m) err ok) :
    TestOk (tr ++ [e]) t := by
  have hasked : askedBy (tr ++ [e]) = askedBy tr := by
    funext i
    refine filterMap_snoc_none ?_
    cases e with
    | exec i' k err ok =>
        cases k with
        | checkLogs m => exact absurd rfl (he i' m err ok)
        | ingestLog xlog => rfl
        | applyErr err => rfl
    | _ => rfl
  have hfault : ∀ i, FaultAt (tr ++ [e]) i ↔ FaultAt tr i := by
    intro i
    rw [faultAt_snoc]
    constructor
    · rintro (hold | ⟨m, err, ok, rfl, _⟩)
      · exact hold
      · exact absurd rfl (he _ _ _ _)
    · exact Or.inl
  refine ⟨?_, ?_, ?_⟩
  · rw [hasked]
    exact h.held
  · simp only [hfault, hasked]
    exact h.fair
  · simp only [hfault, hasked]
    exact h.kept

variable [DecidableEq Cmd]

/-- As long as no fault has been found, the answer is a fault exactly if the command is one. -/
theorem TestOk.faulty_iff (h : TestOk tr t) (hno : ∀ i, ¬ FaultAt tr i) (i : Fin n) (m : ApplyMsg Cmd) :
    ¬ Faulty m (t.errMsg S.fmt i m) (t.logs i (m.commandIndex - 1)).isSome ↔
      (∀ j, ∀ m' ∈ askedBy tr j, m'.commandIndex = m.commandIndex → m'.command = m.command)
      ∧ (1 < m.commandIndex → ∃ m' ∈ askedBy tr i, m'.commandIndex = m.commandIndex - 1) := by
  have hmsg : ¬ t.errMsg S.fmt i m ≠ "" ↔
      ∀ j, ∀ m' ∈ askedBy tr j, m'.commandIndex = m.commandIndex → m'.command = m.command := by
    rw [errMsg_ne]
    constructor
    · intro hquiet j m' hm' hidx
      by_contra hne
      exact hquiet ⟨j, m'.command, hidx ▸ h.kept hno j m' hm', hne⟩
    · rintro hall ⟨j, old, hold, hne⟩
      obtain ⟨m', hm', hidx⟩ := (h.held j m.commandIndex).mp (hold ▸ rfl)
      have hentry := h.kept hno j m' hm'
      rw [hidx, hold] at hentry
      exact hne ((Option.some.inj hentry).trans (hall j m' hm' hidx))
  unfold Faulty
  rw [not_or, hmsg, not_and, Bool.not_eq_false, h.held]

omit [DecidableEq Cmd] in
theorem askedBy_ask (tr : List (SrvEvent n Cmd)) (i : Fin n) (m : ApplyMsg Cmd) (err : String) (ok : Bool) :
    askedBy (tr ++ [.exec i (.checkLogs m) err ok]) i = askedBy tr i ++ [m] ∧
    ∀ j, j ≠ i → askedBy (tr ++ [.exec i (.checkLogs m) err ok]) j = askedBy tr j := by
  unfold askedBy
  refine ⟨?_, fun j hj => ?_⟩
  · rw [filterMap_snoc]
    exact congrArg (_ ++ ·) (congrArg Option.toList (if_pos rfl))
  · exact filterMap_snoc_none (if_neg (fun h => hj h.symm))

theorem TestOk.ask (h : TestOk tr t) (i : Fin n) (m : ApplyMsg Cmd) :
    TestOk (tr ++ [.exec i (.checkLogs m) (t.errMsg S.fmt i m) (t.logs i (m.commandIndex - 1)).isSome])
      (t.record i m) := by
  obtain ⟨hi, hother⟩ := askedBy_ask tr i m (t.errMsg S.fmt i m) (t.logs i (m.commandIndex - 1)).isSome
  have hfault : (∀ j, ¬ FaultAt
        (tr ++ [.exec i (.checkLogs m) (t.errMsg S.fmt i m) (t.logs i (m.commandIndex - 1)).isSome]) j) ↔
      (∀ j, ¬ FaultAt tr j) ∧ ¬ Faulty m (t.errMsg S.fmt i m) (t.logs i (m.commandIndex - 1)).isSome := by
    simp only [faultAt_snoc, not_or]
    constructor
    · intro hno
      exact ⟨fun j => (hno j).1, fun hf => (hno i).2 ⟨m, _, _, rfl, hf⟩⟩
    · rintro ⟨hold, hnew⟩ j
      refine ⟨hold j, ?_⟩
      rintro ⟨m', err, ok, heq, hf⟩
      cases heq
      exact hnew hf
  -- what is held; that the faults found are those there are; and that without a fault nothing was overwritten
  refine ⟨fun j k => ?_, ?_, fun hno j m' hm' => ?_⟩
  · rw [record_logs]
    by_cases hj : j = i
    · subst hj
      rw [hi]
      by_cases hk : k = m.commandIndex
      · rw [if_pos ⟨rfl, hk⟩]
        exact iff_of_true rfl ⟨m, List.mem_append_right _ (List.mem_singleton_self _), hk.symm⟩
      · rw [if_neg (fun hat => hk hat.2), h.held]
        simp only [List.mem_append, List.mem_singleton, or_and_right, exists_or, exists_eq_left]
        exact ⟨Or.inl, fun hor => hor.resolve_right (fun heq => hk heq.symm)⟩
    · rw [if_neg (fun hat => hj hat.1), hother j hj]
      exact h.held j k
  · have horder : (∀ j, InOrder (askedBy (tr ++ [.exec i (.checkLogs m) (t.errMsg S.fmt i m)
          (t.logs i (m.commandIndex - 1)).isSome]) j)) ↔ (∀ j, InOrder (askedBy tr j)) ∧
        (1 < m.commandIndex → ∃ m' ∈ askedBy tr i, m'.commandIndex = m.commandIndex - 1) := by
      constructor
      · intro hall
        have hlast := inOrder_snoc.mp (hi ▸ hall i)
        refine ⟨fun j => ?_, hlast.2⟩
        by_cases hj : j = i
        · exact hj ▸ hlast.1
        · exact hother j hj ▸ hall j
      · rintro ⟨hold, hnew⟩ j
        by_cases hj : j = i
        · subst hj
          rw [hi]
          exact inOrder_snoc.mpr ⟨hold j, hnew⟩
        · rw [hother j hj]
          exact hold j
    -- both sides gain one condition, and `faulty_iff` says that it is the same one
    rw [hfault, same_snoc hi hother, horder]
    constructor
    · rintro ⟨hold, hnew⟩
      obtain ⟨hsame, hin⟩ := h.fair.mp hold
      obtain ⟨hagree, hprev⟩ := (h.faulty_iff hold i m).mp hnew
      exact ⟨⟨hsame, hagree⟩, hin, hprev⟩
    · rintro ⟨⟨hsame, hagree⟩, hin, hprev⟩
      have hold := h.fair.mpr ⟨hsame, hin⟩
      exact ⟨hold, (h.faulty_iff hold i m).mpr ⟨hagree, hprev⟩⟩
  · obtain ⟨hold, hnew⟩ := hfault.mp hno
    obtain ⟨hagree, _⟩ := (h.faulty_iff hold i m).mp hnew
    rw [record_logs]
    by_cases hat : j = i ∧ m'.commandIndex = m.commandIndex
    · obtain ⟨rfl, hidx⟩ := hat
      rw [if_pos ⟨rfl, hidx⟩]
      rw [hi, List.mem_append, List.mem_singleton] at hm'
      -- an older entry at this index had the same command, or this one would be a fault
      rcases hm' with hm' | rfl
      · rw [hagree j m' hm' hidx]
      · rfl
    · rw [if_neg hat]
      refine h.kept hold j m' ?_
      by_cases hj : j = i
      · subst hj
        rw [hi, List.mem_append, List.mem_singleton] at hm'
        exact hm'.resolve_right (fun heq => hat ⟨rfl, heq ▸ rfl⟩)
      · exact hother j hj ▸ hm'

end Tester

/-! ## The servers -/

section Servers

variable {n : Nat} {Cmd : Type}

/-- The command a server is about to ask about. -/
def Proc.asking (p : Proc Cmd) : List (ApplyMsg Cmd) :=
  match p.pc, p.rpc with
  | .checkLogs _, .done _ _ => []
  | .checkLogs m, _ => [m]
  | _, _ => []

/-- A fault is on its way to the tester. -/
def Proc.Due (p : Proc Cmd) : Prop :=
  match p.pc, p.rpc with
  | .checkLogs m, .done err ok => Faulty m err ok
  | .applyErr _ _, _ => True
  | _, _ => False

/-- Where the process of a server can be. -/
def Proc.Plain (applyErr : String) (p : Proc Cmd) : Prop :=
  p.closed = false ∧ p.copy = none ∧
  match p.pc with
  | .recv | .checkLogs _ => True
  | .applyErr err fatal => err ≠ "" ∧ fatal = false ∧ ∀ err' ok, p.rpc = .done err' ok → applyErr ≠ ""
  | _ => False

/-- The servers' part of the invariant: what is given is asked about, and a fault that is found is posted or due. -/
structure PostOk (tr : List (SrvEvent n Cmd)) (s : Cluster n Cmd) : Prop where
  late : s.late = []
  plain : ∀ {i p}, s.proc i = some p → p.Plain (s.applyErr i)
  given : ∀ i, givenTo tr i = askedBy tr i ++ (s.proc i).elim [] Proc.asking
  posted : ∀ i, FaultAt tr i ↔ s.applyErr i ≠ "" ∨ (s.proc i).elim False Proc.Due

variable {S : Setup Cmd} {tr : List (SrvEvent n Cmd)} {s s' : Cluster n Cmd} {e : SrvEvent n Cmd} {i : Fin n}
  {p p' : Proc Cmd}

/-- One server moves. What is said of the others does not change. -/
theorem PostOk.move (h : PostOk tr s) (hlate : s'.late = s.late) (hproc : s'.proc = Function.update s.proc i (some p'))
    (hother : ∀ j, j ≠ i → s'.applyErr j = s.applyErr j ∧ e.given j = none ∧ e.asked j = none)
    (hplain : p'.Plain (s'.applyErr i))
    (hgiven : givenTo tr i ++ (e.given i).toList = askedBy tr i ++ (e.asked i).toList ++ p'.asking)
    (hposted : FaultAt (tr ++ [e]) i ↔ s'.applyErr i ≠ "" ∨ p'.Due) : PostOk (tr ++ [e]) s' := by
  refine ⟨hlate.trans h.late, fun {j q} hq => ?_, fun j => ?_, fun j => ?_⟩
  · rw [hproc] at hq
    rcases update_cases hq with ⟨rfl, hnew⟩ | ⟨hne, hold⟩
    · exact Option.some.inj hnew ▸ hplain
    · rw [(hother j hne).1]
      exact h.plain hold
  · unfold givenTo askedBy
    rw [filterMap_snoc, filterMap_snoc, hproc]
    by_cases hj : j = i
    · subst hj
      rw [Function.update_self]
      exact hgiven
    · obtain ⟨_, hg, ha⟩ := hother j hj
      rw [Function.update_of_ne hj, hg, ha, Option.toList_none, List.append_nil, List.append_nil]
      exact h.given j
  · rw [hproc]
    by_cases hj : j = i
    · subst hj
      rw [Function.update_self]
      exact hposted
    · obtain ⟨happ, _, ha⟩ := hother j hj
      rw [Function.update_of_ne hj, happ, faultAt_snoc, ← h.posted j]
      refine ⟨fun hor => hor.resolve_right ?_, Or.inl⟩
      -- another server's step finds no fault with this one
      rintro ⟨m, err, ok, rfl, _⟩
      exact absurd ha (by rw [SrvEvent.asked, if_pos rfl]; nofun)

/-- A server moves without being given anything or asking. -/
theorem PostOk.goOn (h : PostOk tr s) (hlate : s'.late = s.late) (hproc : s'.proc = Function.update s.proc i (some p'))
    (hother : ∀ j, j ≠ i → s'.applyErr j = s.applyErr j) (hgiven : ∀ j, e.given j = none)
    (hasked : ∀ j, e.asked j = none) (hplain : p'.Plain (s'.applyErr i))
    (hsame : (s.proc i).elim [] Proc.asking = p'.asking)
    (hposted : s.applyErr i ≠ "" ∨ (s.proc i).elim False Proc.Due ↔ s'.applyErr i ≠ "" ∨ p'.Due) :
    PostOk (tr ++ [e]) s' := by
  refine h.move hlate hproc (fun j hj => ⟨hother j hj, hgiven j, hasked j⟩) hplain ?_ ?_
  · rw [hgiven, hasked, Option.toList_none, List.append_nil, List.append_nil, ← hsame]
    exact h.given i
  · rw [faultAt_snoc, ← hposted, ← h.posted i]
    refine ⟨fun hor => hor.resolve_right ?_, Or.inl⟩
    rintro ⟨m, err, ok, rfl, _⟩
    exact absurd (hasked i) (by rw [SrvEvent.asked, if_pos rfl]; nofun)

section Steps

/-- What the server makes of the tester's answer. -/
theorem posted_ne_iff {m : ApplyMsg Cmd} {err : String} {ok : Bool} (me : Nat) :
    (if m.commandIndex > 1 ∧ ok = false then outOfOrder me m.commandIndex else err) ≠ "" ↔ Faulty m err ok := by
  unfold Faulty
  split
  · rename_i hskip
    exact iff_of_true (outOfOrder_ne me _) (Or.inr hskip)
  · rename_i hno
    exact ⟨Or.inl, fun hor => hor.resolve_right hno⟩

theorem goto_not_done (p : Proc Cmd) (pc : Pc Cmd) (err : String) (ok : Bool) : (p.goto pc).rpc ≠ .done err ok := by
  unfold Proc.goto
  dsimp only
  split <;> nofun

/-- At the end of the loop's body an error is due if there is one. -/
theorem Proc.Plain.post {applyErr : String} (h : p.Plain applyErr) (err : String) :
    (p.post err).Plain applyErr ∧ ((p.post err).Due ↔ err ≠ "") ∧ (p.post err).asking = [] := by
  obtain ⟨hopen, hcopy, _⟩ := h
  unfold Proc.post
  by_cases herr : err ≠ ""
  · rw [if_pos herr]
    refine ⟨⟨hopen, hcopy, herr, rfl, fun err' ok hdone => ?_⟩, iff_of_true trivial herr, rfl⟩
    exact absurd hdone (goto_not_done _ _ _ _)
  · rw [if_neg herr]
    exact ⟨⟨hopen, hcopy, trivial⟩, iff_of_false id herr, rfl⟩

theorem recv_quiet (hrecv : p.pc = .recv) : p.asking = [] ∧ ¬ p.Due := by
  unfold Proc.asking Proc.Due
  rw [hrecv]
  exact ⟨rfl, id⟩

/-- A server that has not asked yet. -/
theorem checkLogs_asking {m : ApplyMsg Cmd} (hpc : p.pc = .checkLogs m) (hnot : ∀ err ok, p.rpc ≠ .done err ok) :
    p.asking = [m] ∧ ¬ p.Due := by
  unfold Proc.asking Proc.Due
  rw [hpc]
  cases hrpc : p.rpc with
  | done err ok => exact absurd hrpc (hnot err ok)
  | unsent => exact ⟨rfl, id⟩
  | sent => exact ⟨rfl, id⟩

theorem PostOk.deliver (h : PostOk tr s) (hs : S.snapshot = false) (hp : s.proc i = some p) (hrecv : p.pc = .recv)
    (m : Msg Cmd) : PostOk (tr ++ [.deliver i m]) (s.setProc i (some (p.receive S i m))) := by
  have hplain := h.plain hp
  have hgiven := h.given i
  have hposted := h.posted i
  obtain ⟨hasking, hdue⟩ := recv_quiet hrecv
  rw [hp, Option.elim_some, hasking, List.append_nil] at hgiven
  rw [hp, Option.elim_some] at hposted
  have hfault : FaultAt (tr ++ [.deliver i m]) i ↔ FaultAt tr i := by
    rw [faultAt_snoc]
    exact ⟨fun hor => hor.resolve_right (fun ⟨_, _, _, heq, _⟩ => nomatch heq), Or.inl⟩
  have hother : ∀ j, j ≠ i → (SrvEvent.deliver i m).given j = none := fun j hj => if_neg (fun hat => hj hat.1.symm)
  unfold Proc.receive
  rw [if_neg (by rw [hs]; exact Bool.false_ne_true)]
  by_cases hv : m.commandValid = true
  · rw [if_pos hv]
    obtain ⟨hnew, hnodue⟩ := checkLogs_asking (p := p.goto (.checkLogs m.cmd)) rfl (goto_not_done _ _)
    refine h.move rfl rfl (fun j hj => ⟨rfl, hother j hj, rfl⟩) ⟨hplain.1, hplain.2.1, trivial⟩ ?_ ?_
    · have hthis : (SrvEvent.deliver i m).given i = some m.cmd := if_pos ⟨rfl, hv⟩
      rw [hthis, hgiven, hnew]
      exact congrArg (· ++ _) (List.append_nil _).symm
    · rw [hfault, hposted]
      exact or_congr_right (iff_of_false hdue hnodue)
  · rw [if_neg hv]
    refine h.move rfl rfl (fun j hj => ⟨rfl, hother j hj, rfl⟩) hplain ?_ ?_
    · have hthis : (SrvEvent.deliver i m).given i = none := if_neg (fun hat => hv hat.2)
      rw [hthis, hgiven, hasking]
      exact (List.append_nil _).symm
    · rw [hfault, hposted]
      rfl

/-- A server's question is answered by the tester. -/
theorem PostOk.ask (h : PostOk tr s) (hp : s.proc i = some p) {m : ApplyMsg Cmd} (hpc : p.pc = .checkLogs m)
    (hsent : p.rpc = .sent) (t : Test n Cmd) (err : String) (ok : Bool) :
    PostOk (tr ++ [.exec i (.checkLogs m) err ok])
      ({ s with test := t }.setProc i (some { p with rpc := .done err ok })) := by
  have hplain := h.plain hp
  have hgiven := h.given i
  have hposted := h.posted i
  obtain ⟨hasking, hdue⟩ := checkLogs_asking hpc (fun err ok hdone => by rw [hsent] at hdone; cases hdone)
  rw [hp, Option.elim_some, hasking] at hgiven
  rw [hp, Option.elim_some] at hposted
  have hthis : (SrvEvent.exec i (.checkLogs m) err ok).asked i = some m := if_pos rfl
  have hdone : ({ p with rpc := .done err ok } : Proc Cmd).asking = []
      ∧ (({ p with rpc := .done err ok } : Proc Cmd).Due ↔ Faulty m err ok) := by
    unfold Proc.asking Proc.Due
    dsimp only
    rw [hpc]
    exact ⟨rfl, Iff.rfl⟩
  refine h.move rfl rfl (fun j hj => ⟨rfl, rfl, if_neg (fun heq => hj heq.symm)⟩) ⟨hplain.1, hplain.2.1, ?_⟩ ?_ ?_
  · dsimp only
    rw [hpc]
    trivial
  · rw [hthis, hgiven, hdone.1, List.append_nil]
    exact List.append_nil _
  · rw [faultAt_snoc, hposted, hdone.2, or_assoc]
    refine or_congr_right ?_
    constructor
    · rintro (hbad | ⟨m', err', ok', heq, hf⟩)
      · exact absurd hbad hdue
      · cases heq
        exact hf
    · exact fun hf => Or.inr ⟨m, err, ok, rfl, hf⟩

theorem PostOk.post (h : PostOk tr s) (hp : s.proc i = some p) {err : String} {fatal : Bool}
    (hpc : p.pc = .applyErr err fatal) (err' : String) (ok : Bool) :
    PostOk (tr ++ [.exec i (.applyErr err) err' ok])
      ({ s with applyErr := Function.update s.applyErr i err }.setProc i (some { p with rpc := .done err' ok })) := by
  obtain ⟨hopen, hcopy, hplain⟩ := h.plain hp
  rw [hpc] at hplain
  obtain ⟨herr, hfatal, _⟩ := hplain
  have hset : Function.update s.applyErr i err i ≠ "" := by rwa [Function.update_self]
  refine h.goOn rfl rfl (fun j hj => Function.update_of_ne hj ..) (fun _ => rfl) (fun _ => rfl)
    ⟨hopen, hcopy, ?_⟩ ?_ ?_
  · dsimp only
    rw [hpc]
    exact ⟨herr, hfatal, fun _ _ _ => hset⟩
  · rw [hp, Option.elim_some]
    unfold Proc.asking
    dsimp only
    rw [hpc]
  · rw [hp, Option.elim_some]
    refine iff_of_true (Or.inr ?_) (Or.inl hset)
    unfold Proc.Due
    rw [hpc]
    trivial

theorem PostOk.ret (h : PostOk tr s) (hs : S.snapshot = false) (hp : s.proc i = some p) {err : String} {ok : Bool}
    (hdone : p.rpc = .done err ok) : PostOk (tr ++ [.ret i]) (s.setProc i (some (p.resume S i err ok))) := by
  have hP := h.plain hp
  have hplain := hP.2.2
  unfold Proc.resume
  cases hpc : p.pc with
  | recv =>
      refine h.goOn rfl rfl (fun _ _ => rfl) (fun _ => rfl) (fun _ => rfl) hP ?_ ?_
      · rw [hp, Option.elim_some]
      · rw [hp, Option.elim_some]
        rfl
  | checkLogs m =>
      dsimp only
      rw [if_neg (by rw [hs]; exact Bool.false_ne_true)]
      obtain ⟨hplain', hdue', hasking'⟩ := hP.post
        (if m.commandIndex > 1 ∧ ok = false then outOfOrder i m.commandIndex else err)
      refine h.goOn rfl rfl (fun _ _ => rfl) (fun _ => rfl) (fun _ => rfl) hplain' ?_ ?_
      · rw [hp, Option.elim_some, hasking']
        unfold Proc.asking
        rw [hpc, hdone]
      · rw [hp, Option.elim_some, hdue', posted_ne_iff]
        unfold Proc.Due
        rw [hpc, hdone]
        rfl
  -- the error has arrived: it was due, and is posted now
  | applyErr err' fatal =>
      rw [hpc] at hplain
      obtain ⟨_, rfl, hset⟩ := hplain
      have hthere := hset _ _ hdone
      refine h.goOn rfl rfl (fun _ _ => rfl) (fun _ => rfl) (fun _ => rfl) ⟨hP.1, hP.2.1, trivial⟩ ?_ ?_
      · rw [hp, Option.elim_some]
        unfold Proc.asking
        rw [hpc]
        rfl
      · exact iff_of_true (Or.inl hthere) (Or.inl hthere)
  | snapshot index err' => rw [hpc] at hplain; exact hplain.elim
  | ingestLog err' => rw [hpc] at hplain; exact hplain.elim
  | exited => rw [hpc] at hplain; exact hplain.elim

variable [DecidableEq Cmd]

theorem judged_step (hs : S.snapshot = false) (hT : TestOk tr s.test) (hP : PostOk tr s) (hstep : SrvStep S s e s')
    (hclose : ∀ i, e ≠ .close i) : TestOk (tr ++ [e]) s'.test ∧ PostOk (tr ++ [e]) s' := by
  cases hstep with
  | @start i hp =>
      have hfresh : ¬ (S.snapshot = true ∧ s.saved i ≠ []) := by
        rintro ⟨hs', _⟩
        rw [hs] at hs'
        cases hs'
      rw [newRfsrv_fresh hfresh]
      refine ⟨hT.keep nofun, hP.goOn rfl rfl (fun _ _ => rfl) (fun _ => rfl) (fun _ => rfl) ⟨rfl, rfl, trivial⟩ ?_ ?_⟩
      · rw [hp]
        rfl
      · rw [hp]
        rfl
  | @deliver i p m hp hrecv => exact ⟨hT.keep nofun, hP.deliver hs hp hrecv m⟩
  | @exec i p k s' err ok hp hk hsent hexec =>
      rcases Proc.call_cases hk with ⟨m, hpc, rfl⟩ | ⟨err', hpc, rfl⟩ | ⟨err', fatal, hpc, rfl⟩
      · obtain ⟨rfl, hret⟩ := Prod.mk.inj hexec
        obtain ⟨rfl, rfl⟩ := Prod.mk.inj hret
        exact ⟨hT.ask i m, hP.ask hp hpc hsent _ _ _⟩
      -- without snapshots there is no `IngestLog`
      · have hplain := (hP.plain hp).2.2
        rw [hpc] at hplain
        exact hplain.elim
      · obtain ⟨rfl, hret⟩ := Prod.mk.inj hexec
        exact ⟨hT.keep nofun, hP.post hp hpc _ _⟩
  | @ret i p err ok hp hdone => exact ⟨hT.keep nofun, hP.ret hs hp hdone⟩
  -- an open connection does not fail, and it is neither copied from nor killed
  | @fail i p k hp hclosed hk =>
      rw [(hP.plain hp).1] at hclosed
      cases hclosed
  | @snapshot i p index err hp hpc =>
      have hplain := (hP.plain hp).2.2
      rw [hpc] at hplain
      exact hplain.elim
  | @persist i p data hp =>
      have hplain := hP.plain hp
      refine ⟨hT.keep nofun, hP.goOn rfl rfl (fun _ _ => rfl) (fun _ => rfl) (fun _ => rfl) hplain ?_ ?_⟩
      · rw [hp]
        rfl
      · rw [hp]
        rfl
  | @close i p hp hup => exact absurd rfl (hclose i)
  | @checkpoint i p hp hclosed =>
      rw [(hP.plain hp).1] at hclosed
      cases hclosed
  | @kill i p data hp hcopy =>
      rw [(hP.plain hp).2.1] at hcopy
      cases hcopy
  | @late i k l₁ l₂ s' err ok hmem hexec =>
      rw [hP.late] at hmem
      exact absurd hmem (by simp)

theorem judged (hs : S.snapshot = false) (hrun : Reaches (rfTest S) tr s) (hclose : ∀ i, .close i ∉ tr) :
    TestOk tr s.test ∧ PostOk tr s := by
  refine Reaches.invariant (P := fun tr s => (∀ i, .close i ∉ tr) → TestOk tr s.test ∧ PostOk tr s)
    (fun _ => ?_) ?_ hrun hclose
  · have hno : ∀ i : Fin n, ¬ FaultAt ([] : List (SrvEvent n Cmd)) i := fun i ⟨_, _, _, hmem, _⟩ => nomatch hmem
    refine ⟨⟨fun i k => ?_, iff_of_true hno ⟨nofun, fun i pre m post hl => ?_⟩, nofun⟩,
      ⟨rfl, nofun, fun _ => rfl, fun i => ?_⟩⟩
    · exact iff_of_false Bool.false_ne_true (fun ⟨_, hmem, _⟩ => nomatch hmem)
    · exact absurd hl (by simp [askedBy])
    · exact iff_of_false (hno i) (fun hor => hor.elim (fun hne => hne rfl) id)
  · intro tr s e s' _ ih hstep hclose
    obtain ⟨hT, hP⟩ := ih (fun i hmem => hclose i (List.mem_append_left _ hmem))
    refine judged_step hs hT hP hstep (fun i he => ?_)
    exact hclose i (List.mem_append_right _ (List.mem_singleton.mpr he.symm))

end Steps

/-- **Without snapshots and without stopping servers the verdict is exact.** When every server waits for a message, an
    error has been posted if and only if two different commands were given for one index, to two servers or to one and
    the same, or a server was given a command without the one before it. -/
theorem verdict_exact [DecidableEq Cmd] (S : Setup Cmd) (hs : S.snapshot = false) (tr : List (SrvEvent n Cmd))
    (s : Cluster n Cmd) (hrun : Reaches (rfTest S) tr s) (hclose : ∀ i, .close i ∉ tr)
    (hwait : ∀ i p, s.proc i = some p → p.pc = .recv) :
    (∀ i, s.applyErr i = "") ↔ Same (givenTo tr) ∧ ∀ i, InOrder (givenTo tr i) := by
  obtain ⟨hT, hP⟩ := judged hs hrun hclose
  have hquiet : ∀ i, (s.proc i).elim [] Proc.asking = [] ∧ ¬ (s.proc i).elim False Proc.Due := by
    intro i
    cases hp : s.proc i with
    | none => exact ⟨rfl, id⟩
    | some p => exact recv_quiet (hwait i p hp)
  have hgiven : givenTo tr = askedBy tr := by
    funext i
    rw [hP.given i, (hquiet i).1, List.append_nil]
  rw [hgiven, ← hT.fair]
  refine forall_congr' (fun i => ?_)
  rw [hP.posted i, not_or, Ne, not_not]
  exact ⟨fun h => ⟨h, (hquiet i).2⟩, And.left⟩

end Servers

/-- A server is given the third command after the first. -/
def skippedRun : List (SrvEvent 1 Bool) :=
  [.start 0 0, .deliver 0 ⟨true, ⟨true, 1⟩, false, none, 0⟩, .exec 0 (.checkLogs ⟨true, 1⟩) "" false, .ret 0,
   .deliver 0 ⟨true, ⟨true, 3⟩, false, none, 0⟩, .exec 0 (.checkLogs ⟨true, 3⟩) "" false, .ret 0,
   .exec 0 (.applyErr "server 0 apply out of order 3") "" false, .ret 0]

/-- The run is one, and the server waits for a message at its end. -/
theorem skippedRun_reaches (w : SnapCodec Bool) : ∃ s, Reaches (rfTest ⟨w, false, toString, false⟩) skippedRun s
    ∧ ∀ i p, s.proc i = some p → p.pc = .recv := by
  have hstart : Reaches (rfTest (n := 1) ⟨w, false, toString, false⟩) [.start 0 0] _ := Run.nil.snoc (SrvStep.start rfl)
  have hfirst := hstart.snoc (e := (.deliver 0 ⟨true, ⟨true, 1⟩, false, none, 0⟩ : SrvEvent 1 Bool))
    (SrvStep.deliver rfl rfl)
  have hchecked := hfirst.snoc (e := (.exec 0 (.checkLogs ⟨true, 1⟩) "" false : SrvEvent 1 Bool))
    (SrvStep.exec rfl rfl rfl rfl)
  have hback := hchecked.snoc (e := (.ret 0 : SrvEvent 1 Bool)) (SrvStep.ret rfl rfl)
  have hthird := hback.snoc (e := (.deliver 0 ⟨true, ⟨true, 3⟩, false, none, 0⟩ : SrvEvent 1 Bool))
    (SrvStep.deliver rfl rfl)
  have hchecked' := hthird.snoc (e := (.exec 0 (.checkLogs ⟨true, 3⟩) "" false : SrvEvent 1 Bool))
    (SrvStep.exec rfl rfl rfl rfl)
  have hback' := hchecked'.snoc (e := (.ret 0 : SrvEvent 1 Bool)) (SrvStep.ret rfl rfl)
  have hposted := hback'.snoc
    (e := (.exec 0 (.applyErr "server 0 apply out of order 3") "" false : SrvEvent 1 Bool))
    (SrvStep.exec rfl rfl rfl rfl)
  have hend := hposted.snoc (e := (.ret 0 : SrvEvent 1 Bool)) (SrvStep.ret rfl rfl)
  refine ⟨_, hend, fun i p hp => ?_⟩
  obtain rfl : i = 0 := Subsingleton.elim ..
  cases hp
  rfl

/-- An error has been posted. -/
theorem verdict_exact_skippedRun : ∃ (S : Setup Bool) (s : Cluster 1 Bool), S.snapshot = false
    ∧ Reaches (rfTest S) skippedRun s ∧ ¬ ∀ i, s.applyErr i = "" := by
  obtain ⟨s, hrun, hwait⟩ := skippedRun_reaches (plainSnapCodec Bool)
  have hclose : ∀ i, .close i ∉ skippedRun := by
    intro i hmem
    simp [skippedRun] at hmem
  refine ⟨_, s, rfl, hrun, ?_⟩
  rw [verdict_exact _ rfl skippedRun s hrun hclose hwait]
  rintro ⟨_, horder⟩
  obtain ⟨m', hm', hidx⟩ := horder 0 [⟨true, 1⟩] ⟨true, 3⟩ [] rfl (by decide)
  rw [List.mem_singleton.mp hm'] at hidx
  exact absurd hidx (by decide)

end Raft
end DistributedLabs
