import Mathlib.Data.List.Induction
import Mathlib.Data.Set.Defs
import Mathlib.Logic.Function.Basic

/-!
# `Lib.Transition` — labelled transition systems and their runs

A system is a start state and a labelled step relation; a run carries the list of its labels, newest
last, so a statement about a history is a statement about that list and needs no ghost field in the state.

Everything a client proves about a system goes through these rules:

* `Reaches.invariant` — a predicate on (trace, state) that holds at the start and is kept by one step
  holds of every run;
* `Run.split` / `Run.append` — a run over a concatenated trace is two runs, in both directions;
* `run_of_exec` / `Run.det` — when a function computes the steps, a list of labels can be executed, and a
  trace determines the state it leads to;
* `Once` — something held at some moment of a run, which further steps cannot undo;
* `Projection.run` — a system whose steps are steps (or stutters) of a second system projects onto it,
  run by run, so the second system's invariants hold of the first;
* `Simulation.reaches` — a system whose steps a second system can follow is explained by it, run by run, up to
  what is seen of the labels.

Nothing here mentions a particular system.
-/

namespace DistributedLabs
namespace Lib

/-- A labelled transition system over states `σ` and labels `ε`. -/
structure LTS (σ ε : Type) where
  init : σ
  step : σ → ε → σ → Prop

/-- Runs of a system, with the labels they went through (newest last). -/
inductive Run {σ ε : Type} (T : LTS σ ε) : σ → List ε → σ → Prop where
  | nil {s} : Run T s [] s
  | snoc {s tr s' e s''} : Run T s tr s' → T.step s' e s'' → Run T s (tr ++ [e]) s''

/-- A run from the start state. -/
def Reaches {σ ε : Type} (T : LTS σ ε) (tr : List ε) (s : σ) : Prop := Run T T.init tr s

section Runs

variable {σ ε : Type} {T : LTS σ ε}

theorem Run.single {s s' : σ} {e : ε} (h : T.step s e s') : Run T s [e] s' :=
  Run.snoc Run.nil h

theorem Run.append {s s' s'' : σ} {tr tr' : List ε} (h : Run T s tr s') (h' : Run T s' tr' s'') :
    Run T s (tr ++ tr') s'' := by
  induction h' with
  | nil => rw [List.append_nil]; exact h
  | snoc _ hstep ih => rw [← List.append_assoc]; exact Run.snoc ih hstep

/-- A run extended in front by one step. -/
theorem Run.cons {s s' s'' : σ} {e : ε} {tr : List ε} (h : T.step s e s') (h' : Run T s' tr s'') :
    Run T s (e :: tr) s'' :=
  Run.append (Run.single h) h'

/-- The empty trace goes nowhere. -/
theorem Run.of_nil {s s' : σ} (h : Run T s [] s') : s' = s := by
  generalize htr : ([] : List ε) = tr at h
  cases h with
  | nil => rfl
  | snoc _ _ => simp at htr

/-- A run over `tr ++ [e]` ends with the step `e`. -/
theorem Run.of_snoc {s s'' : σ} {tr : List ε} {e : ε} (h : Run T s (tr ++ [e]) s'') :
    ∃ s', Run T s tr s' ∧ T.step s' e s'' := by
  generalize htr : tr ++ [e] = tr' at h
  cases h with
  | nil => simp at htr
  | snoc hrun hstep =>
      obtain ⟨rfl, he⟩ := List.append_inj' htr rfl
      obtain rfl : e = _ := by simpa using he
      exact ⟨_, hrun, hstep⟩

/-- A run over a concatenation passes through a middle state. -/
theorem Run.split {s s'' : σ} {tr : List ε} :
    ∀ {tr' : List ε}, Run T s (tr ++ tr') s'' → ∃ s', Run T s tr s' ∧ Run T s' tr' s'' := by
  intro tr'
  induction tr' using List.reverseRecOn generalizing s'' with
  | nil => intro h; rw [List.append_nil] at h; exact ⟨s'', h, Run.nil⟩
  | append_singleton rest e ih =>
      intro h
      rw [← List.append_assoc] at h
      obtain ⟨s₁, hrun, hstep⟩ := Run.of_snoc h
      obtain ⟨s', hpre, hmid⟩ := ih hrun
      exact ⟨s', hpre, Run.snoc hmid hstep⟩

/-- A run over `tr ++ e :: tr'` takes the step `e` between its two parts. -/
theorem Run.split_cons {s s'' : σ} {tr tr' : List ε} {e : ε} (h : Run T s (tr ++ e :: tr') s'') :
    ∃ s₁ s₂, Run T s tr s₁ ∧ T.step s₁ e s₂ ∧ Run T s₂ tr' s'' := by
  obtain ⟨s₁, hpre, hrest⟩ := Run.split h
  obtain ⟨s₂, hone, hpost⟩ := Run.split (show Run T s₁ ([e] ++ tr') s'' from hrest)
  obtain ⟨s₁', hnil, hstep⟩ := Run.of_snoc (show Run T s₁ ([] ++ [e]) s₂ from hone)
  obtain rfl := Run.of_nil hnil
  exact ⟨s₁', s₂, hpre, hstep, hpost⟩

/-- The invariant rule, from any start: what the empty run has and one step keeps, every run has. -/
theorem Run.invariant {P : List ε → σ → Prop} {s₀ : σ} (h0 : P [] s₀)
    (hstep : ∀ tr s e s', Run T s₀ tr s → P tr s → T.step s e s' → P (tr ++ [e]) s')
    {tr : List ε} {s : σ} (h : Run T s₀ tr s) : P tr s := by
  induction h with
  | nil => exact h0
  | snoc hrun hs ih => exact hstep _ _ _ _ hrun ih hs

/-- The invariant rule from the start state. -/
theorem Reaches.invariant {P : List ε → σ → Prop} (h0 : P [] T.init)
    (hstep : ∀ tr s e s', Reaches T tr s → P tr s → T.step s e s' → P (tr ++ [e]) s')
    {tr : List ε} {s : σ} (h : Reaches T tr s) : P tr s :=
  Run.invariant h0 hstep h

theorem Reaches.append {tr tr' : List ε} {s s' : σ} (h : Reaches T tr s) (h' : Run T s tr' s') :
    Reaches T (tr ++ tr') s' := Run.append h h'

theorem Reaches.snoc {tr : List ε} {s s' : σ} {e : ε} (h : Reaches T tr s) (h' : T.step s e s') :
    Reaches T (tr ++ [e]) s' := Run.snoc h h'

/-- The ranking rule: where every step lowers a measure, a run is no longer than what it has used up. -/
theorem Reaches.length_add_le {w : σ → Nat}
    (hstep : ∀ tr s e s', Reaches T tr s → T.step s e s' → w s' < w s) {tr : List ε} {s : σ}
    (h : Reaches T tr s) : tr.length + w s ≤ w T.init := by
  refine Reaches.invariant (P := fun tr s => tr.length + w s ≤ w T.init) (Nat.le_of_eq (Nat.zero_add _)) ?_ h
  intro tr s e s' hrun ih hs
  have hless := hstep tr s e s' hrun hs
  rw [List.length_append, List.length_singleton]
  omega

/-- A state without a step. -/
def LTS.Stuck (T : LTS σ ε) (s : σ) : Prop := ∀ e s', ¬ T.step s e s'

/-- Where every step lowers a measure, every state has a run that ends without a step. -/
theorem exists_stuck {w : σ → Nat} (hstep : ∀ s e s', T.step s e s' → w s' < w s) (s : σ) :
    ∃ tr s', Run T s tr s' ∧ T.Stuck s' := by
  generalize hn : w s = n
  induction n using Nat.strongRecOn generalizing s with
  | ind n ih =>
      by_cases hstuck : T.Stuck s
      · exact ⟨[], s, Run.nil, hstuck⟩
      · simp only [LTS.Stuck, not_forall, not_not] at hstuck
        obtain ⟨e, s₁, hs⟩ := hstuck
        have hless := hstep s e s₁ hs
        obtain ⟨tr, s', hrun, hend⟩ := ih (w s₁) (by omega) s₁ rfl
        exact ⟨e :: tr, s', Run.cons hs hrun, hend⟩

/-- At some moment of the run, `P` held of the trace so far and of the state. -/
def Once (T : LTS σ ε) (P : List ε → σ → Prop) (tr : List ε) (s : σ) : Prop :=
  ∃ pre post s₁, tr = pre ++ post ∧ Reaches T pre s₁ ∧ Run T s₁ post s ∧ P pre s₁

theorem Once.now {P : List ε → σ → Prop} {tr : List ε} {s : σ} (h : Reaches T tr s) (hP : P tr s) :
    Once T P tr s :=
  ⟨tr, [], s, (List.append_nil tr).symm, h, Run.nil, hP⟩

theorem Once.snoc {P : List ε → σ → Prop} {tr : List ε} {s s' : σ} {e : ε} (h : Once T P tr s)
    (hs : T.step s e s') : Once T P (tr ++ [e]) s' := by
  obtain ⟨pre, post, s₁, rfl, hpre, hpost, hP⟩ := h
  exact ⟨pre, post ++ [e], s₁, List.append_assoc pre post [e], hpre, Run.snoc hpost hs, hP⟩

end Runs

/-! ## Reading a trace -/

/-- What is read off a trace label by label grows by what the newest label gives. -/
theorem filterMap_snoc {ε α : Type} (f : ε → Option α) (tr : List ε) (e : ε) :
    (tr ++ [e]).filterMap f = tr.filterMap f ++ (f e).toList := by
  rw [List.filterMap_append]
  cases h : f e <;> simp [h]

theorem filterMap_snoc_none {ε α : Type} {f : ε → Option α} {tr : List ε} {e : ε} (h : f e = none) :
    (tr ++ [e]).filterMap f = tr.filterMap f := by
  rw [filterMap_snoc, h, Option.toList_none, List.append_nil]

/-- A label of a trace with one more label at its end is that label, or it was there before. -/
theorem snoc_eq_append_cons {ε : Type} {tr pre post : List ε} {e x : ε} (h : tr ++ [e] = pre ++ x :: post) :
    (tr = pre ∧ e = x ∧ post = []) ∨ ∃ post', tr = pre ++ x :: post' ∧ post = post' ++ [e] := by
  rcases List.eq_nil_or_concat post with rfl | ⟨post', y, rfl⟩
  · obtain ⟨htr, he⟩ := List.append_inj' h rfl
    exact Or.inl ⟨htr, List.singleton_inj.mp he, rfl⟩
  · rw [List.concat_eq_append, ← List.cons_append, ← List.append_assoc] at h
    obtain ⟨htr, he⟩ := List.append_inj' h rfl
    refine Or.inr ⟨post', htr, ?_⟩
    rw [List.concat_eq_append, he]

/-! ## States with a component for each party -/

/-- After an update of one party's component, a component is that party's new one or somebody's old one. -/
theorem update_cases {ι α : Type} [DecidableEq ι] {f : ι → α} {i j : ι} {x y : α}
    (h : Function.update f i x j = y) : (j = i ∧ x = y) ∨ (j ≠ i ∧ f j = y) := by
  by_cases hj : j = i
  · subst hj
    rw [Function.update_self] at h
    exact Or.inl ⟨rfl, h⟩
  · rw [Function.update_of_ne hj] at h
    exact Or.inr ⟨hj, h⟩

/-! ## Executable systems -/

/-- A partial function that computes the steps of a system: labels name every choice there is. -/
def LTS.ComputedBy {σ ε : Type} (T : LTS σ ε) (next : σ → ε → Option σ) : Prop :=
  ∀ s e s', T.step s e s' ↔ next s e = some s'

/-- Take the steps of a list of labels, one after another. -/
def exec {σ ε : Type} (next : σ → ε → Option σ) : σ → List ε → Option σ
  | s, [] => some s
  | s, e :: tr => (next s e).bind (fun s' => exec next s' tr)

section Executable

variable {σ ε : Type} {T : LTS σ ε} {next : σ → ε → Option σ}

theorem run_of_exec (hT : T.ComputedBy next) :
    ∀ {tr : List ε} {s s' : σ}, exec next s tr = some s' → Run T s tr s'
  | [], s, s', h => by
      obtain rfl : s = s' := by simpa [exec] using h
      exact Run.nil
  | e :: tr, s, s', h => by
      obtain ⟨s₁, hnext, hexec⟩ := Option.bind_eq_some_iff.mp h
      exact Run.cons ((hT s e s₁).mpr hnext) (run_of_exec hT hexec)

/-- A list of labels that executes is a trace. -/
theorem exists_reaches_of_exec (hT : T.ComputedBy next) {tr : List ε}
    (h : (exec next T.init tr).isSome = true) : ∃ s, Reaches T tr s := by
  obtain ⟨s, hs⟩ := Option.isSome_iff_exists.mp h
  exact ⟨s, run_of_exec hT hs⟩

/-- The same, with a property of the state the labels lead to. -/
theorem exists_reaches_with (hT : T.ComputedBy next) (p : σ → Bool) {tr : List ε}
    (h : (exec next T.init tr).any p = true) : ∃ s, Reaches T tr s ∧ p s = true := by
  cases hs : exec next T.init tr with
  | none => simp [hs] at h
  | some s =>
      rw [hs] at h
      exact ⟨s, run_of_exec hT hs, h⟩

/-- In a computed system a trace determines the state it leads to. -/
theorem Run.det (hT : T.ComputedBy next) {s s₁ s₂ : σ} {tr : List ε} (h₁ : Run T s tr s₁)
    (h₂ : Run T s tr s₂) : s₁ = s₂ := by
  induction h₁ generalizing s₂ with
  | nil => exact (Run.of_nil h₂).symm
  | snoc _ hstep ih =>
      obtain ⟨s', hrun, hstep'⟩ := Run.of_snoc h₂
      obtain rfl := ih hrun
      exact Option.some.inj (((hT _ _ _).mp hstep).symm.trans ((hT _ _ _).mp hstep'))

end Executable

/-! ## Projections -/

/-- A projection of `T` onto `U`: each step of `T` is a step of `U` on the projected states, or, when its
    label projects to nothing, leaves the projected state alone. -/
structure Projection {σ ε σ' ε' : Type} (T : LTS σ ε) (U : LTS σ' ε') where
  state : σ → σ'
  label : ε → Option ε'
  init : state T.init = U.init
  stutter : ∀ {s e s'}, T.step s e s' → label e = none → state s' = state s
  step : ∀ {s e s' e'}, T.step s e s' → label e = some e' → U.step (state s) e' (state s')

/-- A whole run projects onto a run of the second system. -/
theorem Projection.run {σ ε σ' ε' : Type} {T : LTS σ ε} {U : LTS σ' ε'} (p : Projection T U)
    {s s' : σ} {tr : List ε} (h : Run T s tr s') :
    Run U (p.state s) (tr.filterMap p.label) (p.state s') := by
  induction h with
  | nil => exact Run.nil
  | @snoc tr s₁ e s₂ _ hstep ih =>
      cases hl : p.label e with
      | none =>
          rw [filterMap_snoc_none hl, p.stutter hstep hl]
          exact ih
      | some e' =>
          rw [filterMap_snoc, hl]
          exact Run.snoc ih (p.step hstep hl)

theorem Projection.reaches {σ ε σ' ε' : Type} {T : LTS σ ε} {U : LTS σ' ε'} (p : Projection T U)
    {s : σ} {tr : List ε} (h : Reaches T tr s) : Reaches U (tr.filterMap p.label) (p.state s) := by
  have hrun := p.run h
  rw [p.init] at hrun
  exact hrun

/-! ## Simulations -/

/-- `U` can follow `T`: for a step of `T` there are steps of `U` that keep the states related, and of which the same
    is seen. -/
structure Simulation {σ ε σ' ε' ο : Type} (T : LTS σ ε) (U : LTS σ' ε') (seen : ε → Option ο)
    (seen' : ε' → Option ο) where
  rel : σ → σ' → Prop
  init : rel T.init U.init
  step : ∀ {s e s' t}, rel s t → T.step s e s' →
    ∃ tr t', Run U t tr t' ∧ rel s' t' ∧ tr.filterMap seen' = (seen e).toList

/-- A whole run is followed. -/
theorem Simulation.reaches {σ ε σ' ε' ο : Type} {T : LTS σ ε} {U : LTS σ' ε'} {seen : ε → Option ο}
    {seen' : ε' → Option ο} (m : Simulation T U seen seen') {tr : List ε} {s : σ} (h : Reaches T tr s) :
    ∃ tr' t, Reaches U tr' t ∧ m.rel s t ∧ tr'.filterMap seen' = tr.filterMap seen := by
  refine Reaches.invariant (P := fun tr s => ∃ tr' t, Reaches U tr' t ∧ m.rel s t ∧
    tr'.filterMap seen' = tr.filterMap seen) ⟨[], U.init, Run.nil, m.init, rfl⟩ ?_ h
  rintro tr s e s' - ⟨tr', t, hrun, hrel, hseen⟩ hstep
  obtain ⟨tr'', t', hfollow, hrel', hseen'⟩ := m.step hrel hstep
  refine ⟨tr' ++ tr'', t', hrun.append hfollow, hrel', ?_⟩
  rw [List.filterMap_append, hseen, hseen', filterMap_snoc]

/-- What can be seen of the runs of a system. -/
def LTS.traces {σ ε ο : Type} (T : LTS σ ε) (seen : ε → Option ο) : Set (List ο) :=
  { l | ∃ tr s, Reaches T tr s ∧ tr.filterMap seen = l }

/-- **What is seen of a system is seen of one that follows it.** -/
theorem Simulation.traces {σ ε σ' ε' ο : Type} {T : LTS σ ε} {U : LTS σ' ε'} {seen : ε → Option ο}
    {seen' : ε' → Option ο} (m : Simulation T U seen seen') : T.traces seen ⊆ U.traces seen' := by
  rintro l ⟨tr, s, hrun, rfl⟩
  obtain ⟨tr', t, hrun', -, hseen⟩ := m.reaches hrun
  exact ⟨tr', t, hrun', hseen⟩

/-- The runs of a system with labels of one kind only. -/
def LTS.restrict {σ ε : Type} (T : LTS σ ε) (P : ε → Prop) : LTS σ ε where
  init := T.init
  step := fun s e s' => T.step s e s' ∧ P e

/-- A run with labels of the one kind is a run of the restricted system. -/
theorem Run.restrict {σ ε : Type} {T : LTS σ ε} {P : ε → Prop} {s s' : σ} {tr : List ε} (h : Run T s tr s')
    (hP : ∀ e ∈ tr, P e) : Run (T.restrict P) s tr s' := by
  induction h with
  | nil => exact Run.nil
  | snoc _ hstep ih =>
      have hpre := ih fun e he => hP e (List.mem_append_left _ he)
      exact Run.snoc hpre ⟨hstep, hP _ (List.mem_append_right _ (List.mem_singleton_self _))⟩

/-- A run of the restricted system is a run, with labels of the one kind. -/
theorem Run.of_restrict {σ ε : Type} {T : LTS σ ε} {P : ε → Prop} {s s' : σ} {tr : List ε}
    (h : Run (T.restrict P) s tr s') : Run T s tr s' ∧ ∀ e ∈ tr, P e := by
  induction h with
  | nil => exact ⟨Run.nil, fun e he => absurd he List.not_mem_nil⟩
  | snoc _ hstep ih =>
      refine ⟨Run.snoc ih.1 hstep.1, ?_⟩
      intro e he
      rcases List.mem_append.mp he with he | he
      · exact ih.2 e he
      · rw [List.mem_singleton.mp he]
        exact hstep.2

end Lib
end DistributedLabs
