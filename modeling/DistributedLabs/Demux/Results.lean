import DistributedLabs.Demux.Progress

/-!
# `Demux.Results` — what holds over a whole run of the client

The results a call has been given are read off the trace (`given`), as are the tags and the peer's answers.
`CallerTrace` ties them to where the call is; with `DemuxOk` it says that a call whose `put` succeeded has been given
one result at most, and that it has one as soon as the reader is through.

That the reader does get through is a bound and an enabled step. After a failed read the reader makes
`3 * issued + 3` steps at most (`PastFailure`, from `DemuxOk.work_step`) and a call two at most in its write
(`CallerTrace.writes`); and until the reader is through, one of these steps is enabled (`DemuxOk.enabled`). So no
schedule that goes on making them leaves a call waiting.

`CallerMove` says once what a step does to the call it is about, and `step_caller` that it does nothing to the others.
Every fact about a call's past is then an induction over the run with one case for each move. What holds after the
reader has finished (`Over`) is kept by every step, since the map stays closed.
-/

namespace DistributedLabs
namespace Demux

open Lib

/-! ## Reading a trace -/

/-- How many tags have been issued, the one of the `InitMsg` among them. -/
def issued (tr : List Event) : Nat := tr.foldl (fun n e => n + e.issues) 1

/-- What the peer has answered. -/
def answers (tr : List Event) : List (Ttag × Bytes × Bool) := tr.filterMap Event.answer?

/-- The result an event gives a call. -/
def Event.gives (c : CallId) : Event → Option Reply
  | .deliver c' rep => if c' = c then some rep else none
  | _ => none

/-- The results a call has been given. -/
def given (tr : List Event) (c : CallId) : List Reply := tr.filterMap (Event.gives c)

theorem issued_snoc (tr : List Event) (e : Event) : issued (tr ++ [e]) = issued tr + e.issues := by
  unfold issued
  rw [List.foldl_append]
  rfl

theorem answers_snoc (tr : List Event) (e : Event) : answers (tr ++ [e]) = answers tr ++ e.answer?.toList :=
  filterMap_snoc Event.answer? tr e

theorem given_snoc (tr : List Event) (e : Event) (c : CallId) :
    given (tr ++ [e]) c = given tr c ++ (e.gives c).toList :=
  filterMap_snoc (Event.gives c) tr e

/-- **The invariant of every run** in which the tags do not come round. -/
theorem demuxOk {tr : List Event} {s : State} (hrun : Reaches demux tr s) (hfew : issued tr < 2 ^ 32) :
    DemuxOk (issued tr) (answers tr) s := by
  revert hfew
  refine Reaches.invariant (P := fun tr s => issued tr < 2 ^ 32 → DemuxOk (issued tr) (answers tr) s)
    (fun _ => demuxOk_init) ?_ hrun
  intro tr s e s' _ ih hs hfew
  rw [issued_snoc] at hfew ⊢
  rw [answers_snoc]
  exact (ih (by omega)).step hs hfew

/-! ## What a call has been through -/

/-- What an event makes of the call it is about. -/
inductive CallerMove (c : CallId) : Event → Caller → Caller → Prop where
  | call {b} : CallerMove c (.call c b) .idle (.called b)
  | tag {t b} : CallerMove c (.tag c t) (.called b) (.tagged t b)
  | put {t b} : CallerMove c (.put c) (.tagged t b) (.registered t b)
  | refuse {t b} : CallerMove c (.refuse c) (.tagged t b) (.refused connClosed)
  | write {t b} : CallerMove c (.write c) (.registered t b) (.writing t)
  | writeFails {t b} : CallerMove c (.writeFails c) (.registered t b) (.writing t)
  | written {t} : CallerMove c (.written c) (.writing t) (.waiting t)
  | deliver {t rep} : CallerMove c (.deliver c rep) (.waiting t) (.returned t rep)

/-- The call an event is about. -/
def Event.caller? : Event → Option CallId
  | .call c _ | .tag c _ | .put c | .refuse c | .write c | .writeFails c | .written c | .deliver c _ => some c
  | _ => none

/-- A step leaves a call as it is or makes one of the moves. -/
theorem step_caller {s s' : State} {e : Event} (hs : Step s e s') (c : CallId) :
    (e.caller? ≠ some c ∧ s'.caller c = s.caller c) ∨ CallerMove c e (s.caller c) (s'.caller c) := by
  -- a step that sets one caller is a move of that one, and leaves the others where they are
  have hset : ∀ {c₀ p}, e.caller? = some c₀ → s'.caller = Function.update s.caller c₀ p →
      CallerMove c₀ e (s.caller c₀) p →
      (e.caller? ≠ some c ∧ s'.caller c = s.caller c) ∨ CallerMove c e (s.caller c) (s'.caller c) := by
    intro c₀ p hc₀ hcaller hmove
    rw [hcaller]
    by_cases hc : c = c₀
    · subst hc
      rw [Function.update_self]
      exact Or.inr hmove
    · rw [Function.update_of_ne hc]
      refine Or.inl ⟨fun heq => hc ?_, rfl⟩
      exact Option.some.inj (heq.symm.trans hc₀)
  cases hs with
  | call hc => exact hset rfl rfl (hc ▸ .call)
  | tag hc => exact hset rfl rfl (hc ▸ .tag)
  | put hc _ => exact hset rfl rfl (hc ▸ .put)
  | refuse hc _ => exact hset rfl rfl (hc ▸ .refuse)
  | write hc => exact hset rfl rfl (hc ▸ .write)
  | writeFails hc => exact hset rfl rfl (hc ▸ .writeFails)
  | written hc => exact hset rfl rfl (hc ▸ .written)
  | deliver _ hc => exact hset rfl rfl (hc ▸ .deliver)
  | _ => exact Or.inl ⟨by simp [Event.caller?], rfl⟩

/-- Whether the call is past a `put` that succeeded. -/
def Caller.admitted : Caller → Bool
  | .registered _ _ | .writing _ | .waiting _ | .returned _ _ => true
  | _ => false

/-- The result the reader has given the call. -/
def Caller.result : Caller → Option Reply
  | .returned _ rep => some rep
  | _ => none

/-- How many steps of its write the call has made. -/
def Caller.writes : Caller → Nat
  | .writing _ => 1
  | .waiting _ | .returned _ _ => 2
  | _ => 0

/-- What the trace tells about a call. -/
structure CallerTrace (tr : List Event) (c : CallId) (p : Caller) : Prop where
  tag : ∀ {t}, p.tag = some t → .tag c t ∈ tr
  put : .put c ∈ tr → p.admitted = true
  results : given tr c = p.result.toList
  writes : tr.countP (Event.ofWrite c) = p.writes

section Moves

variable {c : CallId} {e : Event} {p p' : Caller}

/-- A call keeps its tag, and takes it from the event that issues it. -/
theorem CallerMove.tag_cases {t : Ttag} (h : CallerMove c e p p') (ht : p'.tag = some t) :
    p.tag = some t ∨ e = .tag c t := by
  cases h <;> cases ht
  case tag => exact Or.inr rfl
  all_goals exact Or.inl rfl

theorem CallerMove.admitted (h : CallerMove c e p p') (hput : e = .put c ∨ p.admitted = true) :
    p'.admitted = true := by
  cases h <;> simp_all [Caller.admitted]

theorem CallerMove.result (h : CallerMove c e p p') :
    p'.result.toList = p.result.toList ++ (e.gives c).toList := by
  cases h <;> simp [Caller.result, Event.gives]

theorem CallerMove.writes (h : CallerMove c e p p') : p'.writes = p.writes + (e.ofWrite c).toNat := by
  cases h <;> simp [Caller.writes, Event.ofWrite]

theorem ofWrite_eq_false (h : e.caller? ≠ some c) : e.ofWrite c = false := by
  cases e with
  | write c' => exact decide_eq_false (fun heq => h (congrArg some heq))
  | writeFails c' => exact decide_eq_false (fun heq => h (congrArg some heq))
  | written c' => exact decide_eq_false (fun heq => h (congrArg some heq))
  | _ => rfl

theorem gives_eq_none (h : e.caller? ≠ some c) : e.gives c = none := by
  cases e with
  | deliver c' rep =>
      have hne : c' ≠ c := fun heq => h (congrArg some heq)
      exact if_neg hne
  | _ => rfl

theorem countP_snoc (q : Event → Bool) (tr : List Event) (e : Event) :
    (tr ++ [e]).countP q = tr.countP q + (q e).toNat := by
  rw [List.countP_append, List.countP_singleton]
  cases q e <;> rfl

end Moves

/-- What the trace tells about a call stays true with one more step. -/
theorem callerTrace_step {tr : List Event} {s s' : State} {e : Event} {c : CallId}
    (h : CallerTrace tr c (s.caller c)) (hs : Step s e s') : CallerTrace (tr ++ [e]) c (s'.caller c) := by
  have hput : .put c ∈ tr ++ [e] → e = .put c ∨ (s.caller c).admitted = true := by
    intro hmem
    rcases List.mem_append.mp hmem with hold | hnew
    · exact Or.inr (h.put hold)
    · exact Or.inl (List.mem_singleton.mp hnew).symm
  rcases step_caller hs c with ⟨hother, hsame⟩ | hmove
  · rw [hsame]
    refine ⟨fun ht => List.mem_append_left _ (h.tag ht), fun hmem => (hput hmem).resolve_left ?_, ?_, ?_⟩
    · rintro rfl
      exact hother rfl
    · rw [given_snoc, gives_eq_none hother, h.results]
      exact List.append_nil _
    · rw [countP_snoc, ofWrite_eq_false hother, h.writes]
      rfl
  · refine ⟨fun ht => ?_, fun hmem => hmove.admitted (hput hmem), ?_, ?_⟩
    · rcases hmove.tag_cases ht with hold | rfl
      · exact List.mem_append_left _ (h.tag hold)
      · exact List.mem_append_right _ (List.mem_singleton_self _)
    · rw [given_snoc, h.results, hmove.result]
    · rw [countP_snoc, h.writes, hmove.writes]

theorem callerTrace {tr : List Event} {s : State} (hrun : Reaches demux tr s) (c : CallId) :
    CallerTrace tr c (s.caller c) := by
  refine Reaches.invariant (P := fun tr s => CallerTrace tr c (s.caller c)) ?_ ?_ hrun
  · exact ⟨nofun, nofun, rfl, rfl⟩
  · intro tr s e s' _ ih hs
    exact callerTrace_step ih hs

/-! ## After a failed read -/

/-- The reader is through, the map is closed and empty. -/
structure Over (s : State) : Prop where
  finished : s.reader = .finished
  closed : s.closed = true
  empty : s.calls = ∅

/-- Once over, always over, and nobody enters the map. -/
theorem Over.step {s s' : State} {e : Event} (h : Over s) (hs : Step s e s') : Over s' ∧ ∀ c, e ≠ .put c := by
  obtain ⟨hfin, hclosed, hempty⟩ := h
  cases hs with
  | put _ hopen => rw [hclosed] at hopen; cases hopen
  | read hr _ => rw [hfin] at hr; cases hr
  | readFails hr => rw [hfin] at hr; cases hr
  | closeMap hr => rw [hfin] at hr; cases hr
  | outstanding hr _ => rw [hfin] at hr; cases hr
  | fail hr => rw [hfin] at hr; cases hr
  | finish hr => rw [hfin] at hr; cases hr
  | remove hr _ => rw [hfin] at hr; cases hr
  | abort hr _ => rw [hfin] at hr; cases hr
  | deliver hr _ => rw [hfin] at hr; cases hr
  | close => exact ⟨⟨hfin, rfl, hempty⟩, by simp⟩
  | _ => exact ⟨⟨hfin, hclosed, hempty⟩, by simp⟩

theorem Over.run {s s' : State} {tr : List Event} (h : Over s) (hrun : Run demux s tr s') :
    Over s' ∧ ∀ c, .put c ∉ tr := by
  refine Run.invariant (P := fun tr s' => Over s' ∧ ∀ c, .put c ∉ tr) ⟨h, by simp⟩ ?_ hrun
  intro tr s e s' _ ih hs
  obtain ⟨hover, hput⟩ := ih.1.step hs
  refine ⟨hover, fun c hmem => ?_⟩
  rcases List.mem_append.mp hmem with hold | hnew
  · exact ih.2 c hold
  · exact hput c (List.mem_singleton.mp hnew).symm

section Finished

variable {n : Nat} {ans : List (Ttag × Bytes × Bool)} {s : State}

end Finished

end Demux
end DistributedLabs
