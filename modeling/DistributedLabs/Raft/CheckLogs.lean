import DistributedLabs.Lib.Transition
import Mathlib.Logic.Nontrivial.Defs

/-!
# `Raft.CheckLogs` — the tester's check of what the servers commit

`raft1/test.go`: every server reports the commands it applies (`CheckLogs`) and, when it takes over a snapshot, a
whole log (`IngestLog`). The tester keeps one log per server and compares a reported command with the entries at
its index.

The tester sees a report only as long as it holds it. `CheckLogs` overwrites an entry after comparing it, but
`IngestLog` replaces a log without looking at it, so a command can be gone before a second server reports a
different one. Which calls do this can be told from the calls alone:

* `latest` is a server's last word on an index, and what the tester holds are the last words (`logs_eq_latest`);
* `Drops` says of one `IngestLog` that it takes a command out of sight: nobody else's last word is that command, and
  what is left at the index does not differ in itself;
* `Test.Shows` says of one state that a command, once reported, will be held against a different one. Checks keep it
  unless they return an error, and ingested logs keep it unless they drop (`shows_of_retains`).

So a run in which no ingested log drops a command misses nothing, and right after one that does there is a report
that goes unnoticed (`divergence_caught_iff`).

Both functions run under `ts.mu`, so a run is a sequence of calls. Commands are of any type with equality, and
`fmt` stands for the `%v` of `Sprintf`. A map is the function that looks it up.
-/

namespace DistributedLabs
namespace Raft

open Lib

/-! ## The code -/

/-- A Go map from indices to commands. -/
abbrev Log (Cmd : Type) := Int → Option Cmd

/-- The fields of an `ApplyMsg` that the tester reads. -/
structure ApplyMsg (Cmd : Type) where
  command : Cmd
  commandIndex : Int
deriving DecidableEq, Repr

/-- `Test`: the log of each server, and the highest index reported. -/
structure Test (n : Nat) (Cmd : Type) where
  logs : Fin n → Log Cmd
  maxIndex : Int

/-- A call, with what it returns. -/
inductive Event (n : Nat) (Cmd : Type) where
  | checkLogs (i : Fin n) (m : ApplyMsg Cmd) (errMsg : String) (prevok : Bool)
  | ingestLog (i : Fin n) (xlog : Log Cmd)

section Code

variable {n : Nat} {Cmd : Type}

/-- A test at its start. -/
def makeTest : Test n Cmd := { logs := fun _ _ => none, maxIndex := 0 }

/-- What `CheckLogs` writes, whatever its comparison said. -/
def Test.record (ts : Test n Cmd) (i : Fin n) (m : ApplyMsg Cmd) : Test n Cmd :=
  { logs := Function.update ts.logs i (Function.update (ts.logs i) m.commandIndex (some m.command))
    maxIndex := if m.commandIndex > ts.maxIndex then m.commandIndex else ts.maxIndex }

/-- `IngestLog`: the log is taken as it comes. -/
def Test.ingestLog (ts : Test n Cmd) (i : Fin n) (xlog : Log Cmd) : Test n Cmd :=
  { ts with logs := Function.update ts.logs i xlog }

variable (fmt : Cmd → String)

/-- The message about an entry of server `j` that differs. -/
def conflictMsg (i : Fin n) (m : ApplyMsg Cmd) (j : Fin n) (old : Cmd) : String :=
  "commit index=" ++ toString m.commandIndex ++ " server=" ++ toString i.val ++ " " ++ fmt m.command
    ++ " != server=" ++ toString j.val ++ " " ++ fmt old

variable [DecidableEq Cmd]

/-- One round of the loop of `CheckLogs`: a later conflict replaces the message of an earlier one. -/
def Test.compare (ts : Test n Cmd) (i : Fin n) (m : ApplyMsg Cmd) (errMsg : String) (j : Fin n) : String :=
  match ts.logs j m.commandIndex with
  | some old => if old ≠ m.command then conflictMsg fmt i m j old else errMsg
  | none => errMsg

/-- The loop of `CheckLogs`: the message about the last server whose entry differs. -/
def Test.errMsg (ts : Test n Cmd) (i : Fin n) (m : ApplyMsg Cmd) : String :=
  (List.finRange n).foldl (ts.compare fmt i m) ""

/-- `CheckLogs`: the message, and whether the server has an entry at the index below. -/
def Test.checkLogs (ts : Test n Cmd) (i : Fin n) (m : ApplyMsg Cmd) : Test n Cmd × String × Bool :=
  (ts.record i m, ts.errMsg fmt i m, (ts.logs i (m.commandIndex - 1)).isSome)

/-- One call. -/
inductive Step : Test n Cmd → Event n Cmd → Test n Cmd → Prop where
  | checkLogs {ts i m ts' err ok} : ts.checkLogs fmt i m = (ts', err, ok) →
      Step ts (.checkLogs i m err ok) ts'
  | ingestLog {ts i xlog} : Step ts (.ingestLog i xlog) (ts.ingestLog i xlog)

/-- The tester, called by its servers in any order. -/
def tester : LTS (Test n Cmd) (Event n Cmd) := ⟨makeTest, Step fmt⟩

end Code

/-! ## Reports -/

section Reports

variable {n : Nat} {Cmd : Type}

def Event.server : Event n Cmd → Fin n
  | .checkLogs i _ _ _ => i
  | .ingestLog i _ => i

/-- The call gives a command for an index. -/
def Event.Reports (k : Int) (v : Cmd) : Event n Cmd → Prop
  | .checkLogs _ m _ _ => m.commandIndex = k ∧ m.command = v
  | .ingestLog _ xlog => xlog k = some v

/-- The call returns an error. -/
def Event.Fails : Event n Cmd → Prop
  | .checkLogs _ _ errMsg _ => errMsg ≠ ""
  | .ingestLog _ _ => False

/-- A command that differs from `v` will be noticed at index `k`. -/
def Test.Shows (ts : Test n Cmd) (k : Int) (v : Cmd) : Prop :=
  (∃ j, ts.logs j k = some v) ∨ ∃ j j' u u', ts.logs j k = some u ∧ ts.logs j' k = some u' ∧ u ≠ u'

end Reports

section Facts

variable {n : Nat} {Cmd : Type} {ts ts' : Test n Cmd} {i : Fin n} {m : ApplyMsg Cmd}

theorem record_logs {j : Fin n} {k : Int} :
    (ts.record i m).logs j k = if j = i ∧ k = m.commandIndex then some m.command else ts.logs j k := by
  show Function.update ts.logs i _ j k = _
  by_cases hj : j = i
  · rw [hj, Function.update_self]
    by_cases hk : k = m.commandIndex
    · rw [hk, Function.update_self, if_pos ⟨rfl, rfl⟩]
    · rw [Function.update_of_ne hk, if_neg (fun h => hk h.2)]
  · rw [Function.update_of_ne hj, if_neg (fun h => hj h.1)]

theorem ingestLog_logs {xlog : Log Cmd} {j : Fin n} {k : Int} :
    (ts.ingestLog i xlog).logs j k = if j = i then xlog k else ts.logs j k := by
  show Function.update ts.logs i xlog j k = _
  by_cases hj : j = i
  · rw [hj, Function.update_self, if_pos rfl]
  · rw [Function.update_of_ne hj, if_neg hj]

variable {fmt : Cmd → String}

theorem conflictMsg_ne {j : Fin n} {old : Cmd} : conflictMsg fmt i m j old ≠ "" := by
  unfold conflictMsg
  simp [String.append_assoc]

variable [DecidableEq Cmd]

/-- A round of the loop has a message if it had one or the entry differs. -/
theorem compare_ne {err : String} {j : Fin n} :
    ts.compare fmt i m err j ≠ "" ↔
      err ≠ "" ∨ ∃ old, ts.logs j m.commandIndex = some old ∧ old ≠ m.command := by
  unfold Test.compare
  cases hentry : ts.logs j m.commandIndex with
  | none => simp
  | some old =>
      by_cases hne : old ≠ m.command
      · simp [hne, conflictMsg_ne]
      · simp [hne]

/-- The message is not empty if some server's entry differs, whichever it is. -/
theorem errMsg_ne :
    ts.errMsg fmt i m ≠ "" ↔ ∃ j old, ts.logs j m.commandIndex = some old ∧ old ≠ m.command := by
  have hloop : ∀ (l : List (Fin n)) (err : String), l.foldl (ts.compare fmt i m) err ≠ "" ↔
      err ≠ "" ∨ ∃ j ∈ l, ∃ old, ts.logs j m.commandIndex = some old ∧ old ≠ m.command := by
    intro l
    induction l with
    | nil => simp
    | cons j l ih =>
        intro err
        rw [List.foldl_cons, ih, compare_ne, or_assoc]
        simp only [List.mem_cons, exists_eq_or_imp]
  unfold Test.errMsg
  rw [hloop]
  simp

/-- What the tester holds after a call it held before, or the call reports it. -/
theorem step_logs {e : Event n Cmd} (h : Step fmt ts e ts') {j : Fin n} {k : Int} {v : Cmd}
    (hv : ts'.logs j k = some v) : ts.logs j k = some v ∨ e.Reports k v := by
  cases h with
  | @checkLogs i m _ err ok hcall =>
      obtain ⟨rfl, _⟩ := Prod.mk.inj hcall
      rw [record_logs] at hv
      split at hv
      · rename_i hat
        exact Or.inr ⟨hat.2.symm, Option.some.inj hv⟩
      · exact Or.inl hv
  | ingestLog =>
      rw [ingestLog_logs] at hv
      split at hv
      · exact Or.inr hv
      · exact Or.inl hv

/-- What the tester holds has been reported. -/
theorem recorded_reported {tr : List (Event n Cmd)} (h : Reaches (tester fmt) tr ts) {j : Fin n} {k : Int} {v : Cmd}
    (hv : ts.logs j k = some v) : ∃ e ∈ tr, e.Reports k v := by
  induction h with
  | nil => cases hv
  | snoc _ hstep ih =>
      rcases step_logs hstep hv with hold | hnew
      · obtain ⟨e, he, hrep⟩ := ih hold
        exact ⟨e, List.mem_append_left _ he, hrep⟩
      · exact ⟨_, List.mem_append_right _ (List.mem_singleton_self _), hnew⟩

/-- A call returns an error exactly if it is a check and some server's entry differs. -/
theorem step_fails_iff {e : Event n Cmd} (h : Step fmt ts e ts') :
    e.Fails ↔ ∃ i m err ok, e = .checkLogs i m err ok ∧
      ∃ j old, ts.logs j m.commandIndex = some old ∧ old ≠ m.command := by
  cases h with
  | @checkLogs i m _ err ok hcall =>
      have herr : ts.errMsg fmt i m = err := (Prod.mk.inj (Prod.mk.inj hcall).2).1
      constructor
      · intro hfail
        exact ⟨i, m, err, ok, rfl, errMsg_ne.mp (herr ▸ hfail)⟩
      · rintro ⟨i', m', err', ok', heq, hdiff⟩
        cases heq
        show err ≠ ""
        rw [← herr]
        exact errMsg_ne.mpr hdiff
  | ingestLog => simp [Event.Fails]

/-- No two reports differ. -/
def Agree (tr : List (Event n Cmd)) : Prop :=
  ∀ e ∈ tr, ∀ e' ∈ tr, ∀ k v v', e.Reports k v → e'.Reports k v' → v = v'

/-- Where no two reports differ no call returns an error. -/
theorem no_failure_of_agree {tr : List (Event n Cmd)} (h : Reaches (tester fmt) tr ts) (hagree : Agree tr) :
    ∀ e ∈ tr, ¬ e.Fails := by
  induction h with
  | nil => simp
  | @snoc tr s e s' hrun hstep ih =>
      intro e' he'
      rcases List.mem_append.mp he' with hold | hnew
      · refine ih (fun a ha b hb => ?_) e' hold
        exact hagree a (List.mem_append_left _ ha) b (List.mem_append_left _ hb)
      · obtain rfl := List.mem_singleton.mp hnew
        rw [step_fails_iff hstep]
        rintro ⟨i, m, err, ok, rfl, j, old, hold, hne⟩
        obtain ⟨a, ha, hrep⟩ := recorded_reported hrun hold
        exact hne (hagree a (List.mem_append_left _ ha) _ he' _ _ _ hrep ⟨rfl, rfl⟩)

/-! ## What the tester notices -/

/-- An entry that is not `v`, or two entries that differ: one of them differs from any other command. -/
theorem Test.Shows.errMsg_ne {v : Cmd} (h : ts.Shows m.commandIndex v) (hne : v ≠ m.command) :
    ts.errMsg fmt i m ≠ "" := by
  rw [Raft.errMsg_ne]
  rcases h with ⟨j, hj⟩ | ⟨j, j', u, u', hj, hj', hdiff⟩
  · exact ⟨j, v, hj, hne⟩
  · by_cases hu : u = m.command
    · exact ⟨j', u', hj', fun hu' => hdiff (hu.trans hu'.symm)⟩
    · exact ⟨j, u, hj, hu⟩

variable (fmt) in
/-- Otherwise there is a command that goes unnoticed: the one the entries have, or any if there is no entry. -/
theorem exists_unnoticed [Nontrivial Cmd] {k : Int} {v : Cmd} (h : ¬ ts.Shows k v) (i : Fin n) :
    ∃ u, v ≠ u ∧ ts.errMsg fmt i ⟨u, k⟩ = "" := by
  obtain ⟨hgone, hsame⟩ := not_or.mp h
  have hquiet : ∀ u, (∀ j old, ts.logs j k = some old → old = u) → ts.errMsg fmt i ⟨u, k⟩ = "" := by
    intro u hu
    by_contra hmsg
    obtain ⟨j, old, hold, hne⟩ := errMsg_ne.mp hmsg
    exact hne (hu j old hold)
  by_cases hentry : ∃ j u, ts.logs j k = some u
  · obtain ⟨j, u, hj⟩ := hentry
    refine ⟨u, ?_, hquiet u (fun j' old hj' => ?_)⟩
    · rintro rfl
      exact hgone ⟨j, hj⟩
    · by_contra hne
      exact hsame ⟨j', j, old, u, hj', hj, hne⟩
  · obtain ⟨u, hu⟩ := exists_ne v
    refine ⟨u, hu.symm, hquiet u (fun j old hj => ?_)⟩
    exact absurd ⟨j, old, hj⟩ hentry

/-- What is noticed next, at one state: everything that differs from what has been reported, if and only if all that
    has been reported still shows. -/
theorem caught_iff_shows [Nontrivial Cmd] {tr : List (Event n Cmd)} :
    (∀ i m, (∃ e ∈ tr, ∃ old, e.Reports m.commandIndex old ∧ old ≠ m.command) → ts.errMsg fmt i m ≠ "") ↔
      ∀ e ∈ tr, ∀ k v, e.Reports k v → ts.Shows k v := by
  constructor
  · intro hcaught e he k v hrep
    by_contra hshow
    obtain ⟨u, hne, hquiet⟩ := exists_unnoticed fmt hshow e.server
    exact hcaught e.server ⟨u, k⟩ ⟨e, he, v, hrep, hne⟩ hquiet
  · rintro hshow i m ⟨e, he, old, hrep, hne⟩
    exact (hshow e he _ _ hrep).errMsg_ne hne

end Facts

/-! ## What the calls leave to be seen -/

section Calls

variable {n : Nat} {Cmd : Type} {tr : List (Event n Cmd)}

/-- A server's word on an index after a call, if it was `w` before. -/
def Event.word (j : Fin n) (k : Int) (w : Option Cmd) : Event n Cmd → Option Cmd
  | .checkLogs i m _ _ => if j = i ∧ k = m.commandIndex then some m.command else w
  | .ingestLog i xlog => if j = i then xlog k else w

/-- The last word of a server on an index: what its last call about it said. -/
def latest (tr : List (Event n Cmd)) (j : Fin n) (k : Int) : Option Cmd := tr.foldl (Event.word j k) none

theorem latest_snoc (tr : List (Event n Cmd)) (e : Event n Cmd) (j : Fin n) (k : Int) :
    latest (tr ++ [e]) j k = e.word j k (latest tr j k) := by
  unfold latest
  rw [List.foldl_append]
  rfl

/-- A last word has been said, by the server whose it is. -/
theorem latest_reported {j : Fin n} {k : Int} {v : Cmd} (h : latest tr j k = some v) :
    ∃ e ∈ tr, e.server = j ∧ e.Reports k v := by
  induction tr using List.reverseRecOn with
  | nil => cases h
  | append_singleton tr e ih =>
      have hnew : e.server = j ∧ e.Reports k v ∨ latest tr j k = some v := by
        rw [latest_snoc] at h
        cases e with
        | checkLogs i m err ok =>
            simp only [Event.word] at h
            split at h
            · rename_i hat
              exact Or.inl ⟨hat.1.symm, hat.2.symm, Option.some.inj h⟩
            · exact Or.inr h
        | ingestLog i xlog =>
            simp only [Event.word] at h
            split at h
            · rename_i hat
              exact Or.inl ⟨hat.symm, h⟩
            · exact Or.inr h
      rcases hnew with hnew | hold
      · exact ⟨e, List.mem_append_right _ (List.mem_singleton_self e), hnew⟩
      · obtain ⟨a, ha, hrep⟩ := ih hold
        exact ⟨a, List.mem_append_left _ ha, hrep⟩

/-- After the calls `pre`, an ingested log takes a command out of sight: it is the server's last word and no other
    server's, the log does not have it, and what is left at the index is one command `u` at most, so that a second
    `u` will be found to agree with everything. -/
structure Drops (pre : List (Event n Cmd)) (i : Fin n) (xlog : Log Cmd) (k : Int) (v : Cmd) : Prop where
  held : latest pre i k = some v
  lost : xlog k ≠ some v
  alone : ∀ j ≠ i, latest pre j k ≠ some v
  left : ∃ u, (∀ w, xlog k = some w → w = u) ∧ ∀ j ≠ i, ∀ w, latest pre j k = some w → w = u

/-- No ingested log takes a command out of sight. -/
def Retains (tr : List (Event n Cmd)) : Prop :=
  ∀ pre i xlog post, tr = pre ++ .ingestLog i xlog :: post → ∀ k v, ¬ Drops pre i xlog k v

/-- Every ingested log has all that its server has reported. -/
def Keeps (tr : List (Event n Cmd)) : Prop :=
  ∀ pre i xlog post, tr = pre ++ .ingestLog i xlog :: post →
    ∀ e ∈ pre, e.server = i → ∀ k v, e.Reports k v → xlog k = some v

/-- A `CheckLogs` that differs from an earlier report returns an error, unless an earlier one has done so. -/
def Catches (tr : List (Event n Cmd)) : Prop :=
  ∀ pre i m err ok post, tr = pre ++ .checkLogs i m err ok :: post →
    (∃ e ∈ pre, ∃ old, e.Reports m.commandIndex old ∧ old ≠ m.command) → err ≠ "" ∨ ∃ e ∈ pre, e.Fails

theorem Keeps.retains (h : Keeps tr) : Retains tr := by
  intro pre i xlog post htr k v hdrop
  obtain ⟨e, he, hserver, hrep⟩ := latest_reported hdrop.held
  exact hdrop.lost (h pre i xlog post htr e he hserver k v hrep)

theorem Retains.of_append {post : List (Event n Cmd)} (h : Retains (tr ++ post)) : Retains tr := by
  intro pre i xlog rest htr
  refine h pre i xlog (rest ++ post) ?_
  rw [htr, List.append_assoc, List.cons_append]

theorem retains_nil : Retains ([] : List (Event n Cmd)) := by
  intro pre i xlog post htr
  simp at htr

theorem Retains.checkLogs (h : Retains tr) (i : Fin n) (m : ApplyMsg Cmd) (err : String) (ok : Bool) :
    Retains (tr ++ [.checkLogs i m err ok]) := by
  intro pre j xlog post htr
  rcases snoc_eq_append_cons htr with ⟨-, heq, -⟩ | ⟨post', hpre, -⟩
  · cases heq
  · exact h pre j xlog post' hpre

theorem Retains.ingestLog {i : Fin n} {xlog : Log Cmd} (h : Retains tr) (hlast : ∀ k v, ¬ Drops tr i xlog k v) :
    Retains (tr ++ [.ingestLog i xlog]) := by
  intro pre j xlog' post htr
  rcases snoc_eq_append_cons htr with ⟨rfl, heq, -⟩ | ⟨post', hpre, -⟩
  · cases heq
    exact hlast
  · exact h pre j xlog' post' hpre

variable [DecidableEq Cmd] {fmt : Cmd → String} {ts ts' : Test n Cmd}

/-- What the tester holds for a server are its last words. -/
theorem logs_eq_latest (h : Reaches (tester fmt) tr ts) (j : Fin n) (k : Int) : ts.logs j k = latest tr j k := by
  induction h with
  | nil => rfl
  | @snoc tr s e s' _ hstep ih =>
      rw [latest_snoc, ← ih]
      cases hstep with
      | checkLogs hcall =>
          obtain ⟨rfl, -⟩ := Prod.mk.inj hcall
          exact record_logs
      | ingestLog => exact ingestLog_logs

section Ingest

variable {i : Fin n} {xlog : Log Cmd} {k : Int} {v : Cmd}

omit [DecidableEq Cmd] in
theorem ingestLog_self : (ts.ingestLog i xlog).logs i k = xlog k := by
  rw [ingestLog_logs, if_pos rfl]

omit [DecidableEq Cmd] in
theorem ingestLog_other {j : Fin n} (hne : j ≠ i) : (ts.ingestLog i xlog).logs j k = ts.logs j k := by
  rw [ingestLog_logs, if_neg hne]

/-- A log that drops a command is one after which the command does not show. -/
theorem drops_iff (h : Reaches (tester fmt) tr ts) (hv : ts.logs i k = some v) :
    Drops tr i xlog k v ↔ ¬ (ts.ingestLog i xlog).Shows k v := by
  constructor
  · rintro ⟨-, hlost, halone, u, hxlog, hothers⟩
    have hone : ∀ {j w}, (ts.ingestLog i xlog).logs j k = some w → w = u ∧ w ≠ v := by
      intro j w hj
      by_cases hji : j = i
      · rw [hji, ingestLog_self] at hj
        refine ⟨hxlog w hj, ?_⟩
        rintro rfl
        exact hlost hj
      · rw [ingestLog_other hji, logs_eq_latest h] at hj
        refine ⟨hothers j hji w hj, ?_⟩
        rintro rfl
        exact halone j hji hj
    rintro (⟨j, hj⟩ | ⟨j, j', w, w', hj, hj', hdiff⟩)
    · exact (hone hj).2 rfl
    · exact hdiff ((hone hj).1.trans (hone hj').1.symm)
  · intro hnot
    obtain ⟨hgone, hsame⟩ := not_or.mp hnot
    have hothers : ∀ {j w}, j ≠ i → latest tr j k = some w → (ts.ingestLog i xlog).logs j k = some w := by
      intro j w hne hj
      rw [ingestLog_other hne, logs_eq_latest h, hj]
    -- all entries that are left are one command
    obtain ⟨u, hone⟩ : ∃ u, ∀ j w, (ts.ingestLog i xlog).logs j k = some w → w = u := by
      by_cases hentry : ∃ j u, (ts.ingestLog i xlog).logs j k = some u
      · obtain ⟨j, u, hj⟩ := hentry
        refine ⟨u, fun j' w hj' => ?_⟩
        by_contra hne
        exact hsame ⟨j', j, w, u, hj', hj, hne⟩
      · exact ⟨v, fun j w hj => absurd ⟨j, w, hj⟩ hentry⟩
    refine ⟨(logs_eq_latest h i k).symm.trans hv, fun hx => hgone ⟨i, ingestLog_self.trans hx⟩, ?_, u, ?_, ?_⟩
    · exact fun j hne hj => hgone ⟨j, hothers hne hj⟩
    · exact fun w hw => hone i w (ingestLog_self.trans hw)
    · exact fun j hne w hj => hone j w (hothers hne hj)

/-- An ingested log that drops nothing leaves in sight what was. -/
theorem Test.Shows.ingestLog (hshow : ts.Shows k v) (h : Reaches (tester fmt) tr ts)
    (hkeep : ∀ v, ¬ Drops tr i xlog k v) : (ts.ingestLog i xlog).Shows k v := by
  have hown : ∀ {w}, ts.logs i k = some w → (ts.ingestLog i xlog).Shows k w := by
    intro w hw
    by_contra hnot
    exact hkeep w ((drops_iff h hw).mpr hnot)
  -- two entries differ, one of them the server's own: the other one stays, and so does a difference
  have hpair : ∀ {j w w'}, ts.logs i k = some w → j ≠ i → ts.logs j k = some w' → w ≠ w' →
      (ts.ingestLog i xlog).Shows k v := by
    intro j w w' hw hne hj hdiff
    rcases hown hw with ⟨j', hj'⟩ | htwo
    · exact Or.inr ⟨j', j, w, w', hj', (ingestLog_other hne).trans hj, hdiff⟩
    · exact Or.inr htwo
  rcases hshow with ⟨j, hj⟩ | ⟨j, j', u, u', hj, hj', hdiff⟩
  · by_cases hji : j = i
    · exact hown (hji ▸ hj)
    · exact Or.inl ⟨j, (ingestLog_other hji).trans hj⟩
  · by_cases hji : j = i
    · subst hji
      refine hpair hj ?_ hj' hdiff
      rintro rfl
      exact hdiff (Option.some.inj (hj.symm.trans hj'))
    · by_cases hji' : j' = i
      · subst hji'
        exact hpair hj' hji hj hdiff.symm
      · exact Or.inr ⟨j, j', u, u', (ingestLog_other hji).trans hj, (ingestLog_other hji').trans hj', hdiff⟩

end Ingest

/-- A check that finds no difference takes nothing out of sight: what it overwrites is what it writes. -/
theorem Test.Shows.checkLogs {i : Fin n} {m : ApplyMsg Cmd} {k : Int} {v : Cmd} (hshow : ts.Shows k v)
    (hquiet : ts.errMsg fmt i m = "") : (ts.record i m).Shows k v := by
  have hkeep : ∀ {j w}, ts.logs j k = some w → (ts.record i m).logs j k = some w := by
    intro j w hj
    rw [record_logs]
    split
    · rename_i hat
      rw [hat.2] at hj
      by_contra hne
      exact Raft.errMsg_ne.mpr ⟨j, w, hj, fun heq => hne (congrArg some heq.symm)⟩ hquiet
    · exact hj
  rcases hshow with ⟨j, hj⟩ | ⟨j, j', u, u', hj, hj', hdiff⟩
  · exact Or.inl ⟨j, hkeep hj⟩
  · exact Or.inr ⟨j, j', u, u', hkeep hj, hkeep hj', hdiff⟩

/-- What a call reports shows after it. -/
theorem reported_shows {e : Event n Cmd} (hstep : Step fmt ts e ts') {k : Int} {v : Cmd} (hrep : e.Reports k v) :
    ts'.Shows k v := by
  cases hstep with
  | @checkLogs i m _ err ok hcall =>
      obtain ⟨rfl, -⟩ := Prod.mk.inj hcall
      obtain ⟨rfl, rfl⟩ := hrep
      exact Or.inl ⟨i, by rw [record_logs, if_pos ⟨rfl, rfl⟩]⟩
  | @ingestLog i xlog => exact Or.inl ⟨i, ingestLog_self.trans hrep⟩

/-- **Without a drop everything shows.** After calls none of which returned an error, if no ingested log has dropped a
    command, every command that has been reported shows. -/
theorem shows_of_retains (h : Reaches (tester fmt) tr ts) (hretain : Retains tr) (hok : ∀ e ∈ tr, ¬ e.Fails) :
    ∀ e ∈ tr, ∀ k v, e.Reports k v → ts.Shows k v := by
  induction h with
  | nil => simp
  | @snoc tr s e s' hrun hstep ih =>
      have hbefore := ih hretain.of_append (fun e he => hok e (List.mem_append_left _ he))
      have hlast := hok e (List.mem_append_right _ (List.mem_singleton_self _))
      intro a ha k v hrep
      rcases List.mem_append.mp ha with hold | hnew
      · have hshow := hbefore a hold k v hrep
        cases hstep with
        | @checkLogs i m _ err ok hcall =>
            obtain ⟨rfl, hres⟩ := Prod.mk.inj hcall
            obtain ⟨rfl, -⟩ := Prod.mk.inj hres
            exact hshow.checkLogs (not_not.mp hlast)
        | @ingestLog i xlog => exact hshow.ingestLog hrun (hretain tr i xlog [] rfl k)
      · obtain rfl := List.mem_singleton.mp hnew
        exact reported_shows hstep hrep

/-- **Nothing is missed as long as nothing is dropped.** -/
theorem catches_of_retains (h : Reaches (tester fmt) tr ts) (hretain : Retains tr) : Catches tr := by
  rintro pre i m err ok post rfl ⟨e, he, old, hrep, hne⟩
  by_cases hfail : ∃ e ∈ pre, e.Fails
  · exact Or.inr hfail
  · left
    obtain ⟨s, s', hpre, hcheck, -⟩ := Run.split_cons h
    cases hcheck with
    | checkLogs hcall =>
        obtain ⟨-, hres⟩ := Prod.mk.inj hcall
        obtain ⟨rfl, -⟩ := Prod.mk.inj hres
        have hshow := shows_of_retains hpre hretain.of_append (fun e he hf => hfail ⟨e, he, hf⟩)
        exact (hshow e he _ _ hrep).errMsg_ne hne

/-- **A drop is missed.** If no call can be added to `tr` that goes unnoticed, none of its ingested logs has dropped a
    command: right after one that does, there is a command that nothing in sight differs from. -/
theorem retains_of_catches [Nontrivial Cmd] (h : Reaches (tester fmt) tr ts) (hok : ∀ e ∈ tr, ¬ e.Fails)
    (hcatch : ∀ pre post i m err ok ts', tr = pre ++ post →
      Reaches (tester fmt) (pre ++ [.checkLogs i m err ok]) ts' → Catches (pre ++ [.checkLogs i m err ok])) :
    Retains tr := by
  rintro pre i xlog post rfl k v hdrop
  obtain ⟨s, s', hpre, hingest, -⟩ := Run.split_cons h
  cases hingest
  have hafter : Reaches (tester fmt) (pre ++ [.ingestLog i xlog]) (s.ingestLog i xlog) := hpre.snoc .ingestLog
  have hcaught : ∀ i' m, (∃ e ∈ pre ++ [.ingestLog i xlog], ∃ old, e.Reports m.commandIndex old ∧ old ≠ m.command) →
      (s.ingestLog i xlog).errMsg fmt i' m ≠ "" := by
    intro i' m hdiff
    rcases hcatch _ post i' m _ _ _ (by simp) (hafter.snoc (.checkLogs rfl)) _ i' m _ _ [] rfl hdiff with
      hmsg | ⟨e, he, hfail⟩
    · exact hmsg
    · refine absurd hfail (hok e ?_)
      rw [List.append_cons]
      exact List.mem_append_left _ he
  obtain ⟨e, he, -, hrep⟩ := latest_reported hdrop.held
  have hv : s.logs i k = some v := (logs_eq_latest hpre i k).trans hdrop.held
  exact (drops_iff hpre hv).mp hdrop (caught_iff_shows.mp hcaught e (List.mem_append_left _ he) k v hrep)

/-- **The tester misses a divergence exactly where an ingested log drops a command.** In every run: servers that agree
    are never accused; if no ingested log drops a command, and so in particular if every ingested log has all that
    its server has reported, a `CheckLogs` that differs from an earlier report returns an error unless an earlier one
    did; and if the run has no error so far, all the checks that can follow on any of its prefixes are of this kind
    only if no ingested log has dropped a command. -/
theorem divergence_caught_iff [Nontrivial Cmd] (h : Reaches (tester fmt) tr ts) :
    (Agree tr → ∀ e ∈ tr, ¬ e.Fails)
    ∧ (Retains tr → Catches tr)
    ∧ (Keeps tr → Retains tr)
    ∧ ((∀ e ∈ tr, ¬ e.Fails) →
        ((∀ pre post i m err ok ts', tr = pre ++ post →
            Reaches (tester fmt) (pre ++ [.checkLogs i m err ok]) ts' → Catches (pre ++ [.checkLogs i m err ok]))
          ↔ Retains tr)) := by
  refine ⟨no_failure_of_agree h, catches_of_retains h, Keeps.retains, fun hok => ?_⟩
  constructor
  · exact retains_of_catches h hok
  · rintro hretain pre post i m err ok ts' rfl hreach
    exact catches_of_retains hreach (hretain.of_append.checkLogs i m err ok)

end Calls

/-- Server 0 reports a command and then takes over a log without it; server 1 reports another one. -/
def missedRun : List (Event 2 Bool) :=
  [.checkLogs 0 ⟨true, 5⟩ "" false, .ingestLog 0 (fun _ => none), .checkLogs 1 ⟨false, 5⟩ "" false]

/-- Two servers have reported different commands for one index, and no call has returned an error. -/
theorem divergence_missed :
    (∃ ts, Reaches (tester toString) missedRun ts) ∧ (∀ e ∈ missedRun, ¬ e.Fails) ∧
      ∃ e ∈ missedRun, ∃ e' ∈ missedRun, e.Reports 5 true ∧ e'.Reports 5 false := by
  have hrun : Reaches (tester toString) missedRun _ :=
    Run.cons (.checkLogs rfl) (Run.cons .ingestLog (Run.single (.checkLogs rfl)))
  refine ⟨⟨_, hrun⟩, ?_, ?_⟩
  · simp [missedRun, Event.Fails]
  · exact ⟨_, List.mem_cons_self .., _, List.mem_cons_of_mem _ (List.mem_cons_of_mem _ (List.mem_cons_self ..)),
      ⟨rfl, rfl⟩, ⟨rfl, rfl⟩⟩

/-- Two servers report a command, and the first takes over a log without it. -/
def keptRun : List (Event 2 Bool) :=
  [.checkLogs 0 ⟨true, 5⟩ "" false, .checkLogs 1 ⟨true, 5⟩ "" false, .ingestLog 0 (fun _ => none)]

/-- The command is still the second server's last word, so it is not dropped. -/
theorem keptRun_retains : Retains keptRun := by
  have hchecks := (retains_nil.checkLogs (0 : Fin 2) ⟨true, 5⟩ "" false).checkLogs 1 ⟨true, 5⟩ "" false
  refine hchecks.ingestLog (fun k v hdrop => ?_)
  -- the other server still has the command
  by_cases hk : k = 5
  · subst hk
    exact hdrop.alone 1 (by decide) hdrop.held
  · have hheld := hdrop.held
    simp [latest, Event.word, hk] at hheld

/-- The log of the first server is gone, and yet what it reports next is caught. -/
theorem divergence_caught_iff_keptRun :
    ∃ err ts, Reaches (tester toString) (keptRun ++ [.checkLogs 0 ⟨false, 5⟩ err false]) ts ∧ err ≠ "" := by
  have hrun : Reaches (tester toString) keptRun _ :=
    Run.cons (.checkLogs rfl) (Run.cons (.checkLogs rfl) (Run.single .ingestLog))
  have hnext := hrun.snoc (Step.checkLogs (i := 0) (m := ⟨false, 5⟩) rfl)
  refine ⟨_, _, hnext, ?_⟩
  have hcatch := (divergence_caught_iff hnext).2.1 (keptRun_retains.checkLogs _ _ _ _)
  rcases hcatch keptRun _ _ _ _ [] rfl ⟨_, List.mem_cons_self .., true, ⟨rfl, rfl⟩, Bool.noConfusion⟩ with
    herr | ⟨e, he, hfail⟩
  · exact herr
  · simp only [keptRun, List.mem_cons, List.not_mem_nil, or_false] at he
    rcases he with rfl | rfl | rfl <;> simp [Event.Fails] at hfail

end Raft
end DistributedLabs
