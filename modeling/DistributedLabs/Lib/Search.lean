import Mathlib.Logic.Relation
import Mathlib.Data.Finset.Card
import Mathlib.Data.List.Nodup

/-!
# `Lib.Search` — depth-first search with a shared set of marks

A search from a node marks it and goes on to its successors, unless it was marked before. The marks outlive a
search, so that a second one stops where the first has been.

* `visit` — the search, with a bound on its depth; `visit_some` says that one more than the number of unmarked
  nodes is enough;
* `Explored` — what a search, or several in a row, adds to the marks: it has marked its roots and everything they
  lead to, short of what was marked before, and nothing else, and nothing twice;
* `Explored.mem_iff` — if the old marks are closed under successors, the new ones are the old ones and what the
  roots lead to.

Nodes are of any type and there may be infinitely many of them.
-/

namespace DistributedLabs
namespace Lib

section Search

variable {α : Type} {next : α → List α}

/-- There is a path from the one node to the other. -/
def Leads (next : α → List α) : α → α → Prop := Relation.ReflTransGen (fun x y => y ∈ next x)

theorem Leads.closed {S : α → Prop} (hS : ∀ y, S y → ∀ z ∈ next y, S z) {x y : α} (hx : S x)
    (h : Leads next x y) : S y := by
  induction h with
  | refl => exact hx
  | tail _ hstep ih => exact hS _ ih _ hstep

/-- What a search from the roots has made of the marks. The new marks are in front. -/
structure Explored (next : α → List α) (roots seen seen' : List α) : Prop where
  grown : ∃ new, seen' = new ++ seen ∧ (∀ y ∈ new, ∀ z ∈ next y, z ∈ seen') ∧
    ∀ y ∈ new, ∃ x ∈ roots, Leads next x y
  marked : ∀ x ∈ roots, x ∈ seen'
  nodup : seen.Nodup → seen'.Nodup

variable {roots roots' seen seen' seen'' : List α}

theorem Explored.refl (h : ∀ x ∈ roots, x ∈ seen) : Explored next roots seen seen :=
  ⟨⟨[], rfl, by simp, by simp⟩, h, id⟩

theorem Explored.subset (h : Explored next roots seen seen') {y : α} (hy : y ∈ seen) : y ∈ seen' := by
  obtain ⟨new, rfl, _⟩ := h.grown
  exact List.mem_append_right _ hy

theorem Explored.trans (h : Explored next roots seen seen') (h' : Explored next roots' seen' seen'') :
    Explored next (roots ++ roots') seen seen'' := by
  have hsub : ∀ {y}, y ∈ seen' → y ∈ seen'' := h'.subset
  constructor
  · obtain ⟨new, hnew, hclosed, hfrom⟩ := h.grown
    obtain ⟨new', hnew', hclosed', hfrom'⟩ := h'.grown
    refine ⟨new' ++ new, by rw [hnew', hnew, List.append_assoc], ?_, ?_⟩
    · intro y hy z hz
      rcases List.mem_append.mp hy with hy | hy
      · exact hclosed' y hy z hz
      · exact hsub (hclosed y hy z hz)
    · intro y hy
      rcases List.mem_append.mp hy with hy | hy
      · obtain ⟨x, hx, hlead⟩ := hfrom' y hy
        exact ⟨x, List.mem_append_right _ hx, hlead⟩
      · obtain ⟨x, hx, hlead⟩ := hfrom y hy
        exact ⟨x, List.mem_append_left _ hx, hlead⟩
  · intro x hx
    rcases List.mem_append.mp hx with hx | hx
    · exact hsub (h.marked x hx)
    · exact h'.marked x hx
  · exact fun hnodup => h'.nodup (h.nodup hnodup)

/-- A node is marked, and then everything its successors lead to. -/
theorem Explored.node {x : α} (hx : x ∉ seen) (h : Explored next (next x) (x :: seen) seen') :
    Explored next [x] seen seen' := by
  obtain ⟨new, hnew, hclosed, hfrom⟩ := h.grown
  constructor
  · refine ⟨new ++ [x], by rw [hnew, List.append_assoc]; rfl, ?_, ?_⟩
    · intro y hy
      rcases List.mem_append.mp hy with hy | hy
      · exact hclosed y hy
      · rw [List.mem_singleton.mp hy]
        exact h.marked
    · intro y hy
      refine ⟨x, List.mem_singleton_self x, ?_⟩
      rcases List.mem_append.mp hy with hy | hy
      · obtain ⟨z, hz, hlead⟩ := hfrom y hy
        exact Relation.ReflTransGen.head hz hlead
      · rw [List.mem_singleton.mp hy]
        exact Relation.ReflTransGen.refl
  · intro y hy
    rw [List.mem_singleton.mp hy]
    exact h.subset (List.mem_cons_self ..)
  · exact fun hnodup => h.nodup (List.nodup_cons.mpr ⟨hx, hnodup⟩)

/-- Marks that are closed under successors stay so. -/
theorem Explored.closed (h : Explored next roots seen seen') (hclosed : ∀ y ∈ seen, ∀ z ∈ next y, z ∈ seen) :
    ∀ y ∈ seen', ∀ z ∈ next y, z ∈ seen' := by
  obtain ⟨new, hnew, hnewclosed, _⟩ := h.grown
  intro y hy z hz
  rcases List.mem_append.mp (hnew ▸ hy) with hin | hin
  · exact hnewclosed y hin z hz
  · exact h.subset (hclosed y hin z hz)

theorem Explored.mem_iff (h : Explored next roots seen seen') (hclosed : ∀ y ∈ seen, ∀ z ∈ next y, z ∈ seen)
    {y : α} : y ∈ seen' ↔ y ∈ seen ∨ ∃ x ∈ roots, Leads next x y := by
  constructor
  · intro hy
    obtain ⟨new, rfl, _, hfrom⟩ := h.grown
    rcases List.mem_append.mp hy with hy | hy
    · exact Or.inr (hfrom y hy)
    · exact Or.inl hy
  · rintro (hy | ⟨x, hx, hlead⟩)
    · exact h.subset hy
    · exact hlead.closed (S := (· ∈ seen')) (h.closed hclosed) (h.marked x hx)

/-! ## The search -/

/-- A loop over a list that projects onto another, step by step. A search that does more than mark nodes projects
    onto one that does not. -/
theorem foldlM_project {σ τ β γ : Type} {f : σ → β → Option σ} {g : τ → γ → Option τ} (p : σ → τ) (q : β → γ)
    (h : ∀ s x, (f s x).map p = g (p s) (q x)) (l : List β) (s : σ) :
    (l.foldlM f s).map p = (l.map q).foldlM g (p s) := by
  induction l generalizing s with
  | nil => rfl
  | cons x l ih =>
      rw [List.foldlM_cons, List.map_cons, List.foldlM_cons, ← h s x]
      cases f s x with
      | none => rfl
      | some s' => exact ih s'

variable [DecidableEq α]

/-- A search from `x`, at most `fuel` deep. -/
def visit (next : α → List α) : Nat → α → List α → Option (List α)
  | 0, _, _ => none
  | fuel + 1, x, seen =>
      if x ∈ seen then some seen
      else (next x).foldlM (fun seen y => visit next fuel y seen) (x :: seen)

/-- One search after the other. -/
def visitAll (next : α → List α) (fuel : Nat) (roots seen : List α) : Option (List α) :=
  roots.foldlM (fun seen y => visit next fuel y seen) seen

theorem visitAll_explored_of {fuel : Nat}
    (hvisit : ∀ x seen seen', visit next fuel x seen = some seen' → Explored next [x] seen seen')
    (h : visitAll next fuel roots seen = some seen') : Explored next roots seen seen' := by
  induction roots generalizing seen with
  | nil =>
      cases h
      exact Explored.refl (by simp)
  | cons x roots ih =>
      unfold visitAll at h
      rw [List.foldlM_cons] at h
      obtain ⟨mid, hone, hrest⟩ := Option.bind_eq_some_iff.mp h
      exact (hvisit x _ _ hone).trans (ih hrest)

/-- **What a search marks.** By induction on its depth. -/
theorem visit_explored {fuel : Nat} {x : α} (h : visit next fuel x seen = some seen') :
    Explored next [x] seen seen' := by
  induction fuel generalizing x seen seen' with
  | zero => cases h
  | succ fuel ih =>
      unfold visit at h
      split at h
      · rename_i hx
        cases h
        exact Explored.refl (by simpa using hx)
      · rename_i hx
        exact (visitAll_explored_of (fun _ _ _ => ih) h).node hx

theorem visitAll_explored {fuel : Nat} (h : visitAll next fuel roots seen = some seen') :
    Explored next roots seen seen' :=
  visitAll_explored_of (fun _ _ _ => visit_explored) h

section Depth

variable {U : Finset α}

/-- What is not marked yet. -/
def unmarked (U : Finset α) (seen : List α) : Finset α := U.filter (· ∉ seen)

theorem unmarked_mono (h : ∀ y ∈ seen, y ∈ seen') : (unmarked U seen').card ≤ (unmarked U seen).card := by
  apply Finset.card_le_card
  intro y hy
  obtain ⟨hU, hout⟩ := Finset.mem_filter.mp hy
  exact Finset.mem_filter.mpr ⟨hU, fun hin => hout (h y hin)⟩

theorem unmarked_cons {x : α} (hx : x ∈ U) (hout : x ∉ seen) :
    (unmarked U (x :: seen)).card < (unmarked U seen).card := by
  apply Finset.card_lt_card
  refine ⟨?_, fun hsub => ?_⟩
  · intro y hy
    obtain ⟨hU, hno⟩ := Finset.mem_filter.mp hy
    exact Finset.mem_filter.mpr ⟨hU, fun hin => hno (List.mem_cons_of_mem _ hin)⟩
  · have hself := hsub (Finset.mem_filter.mpr ⟨hx, hout⟩)
    exact (Finset.mem_filter.mp hself).2 (List.mem_cons_self ..)

/-- Several searches return, if each of them does. -/
theorem visitAll_some_of {fuel : Nat}
    (hvisit : ∀ x seen, x ∈ U → (unmarked U seen).card < fuel → ∃ seen', visit next fuel x seen = some seen')
    (hroots : ∀ x ∈ roots, x ∈ U) (hfuel : (unmarked U seen).card < fuel) :
    ∃ seen', visitAll next fuel roots seen = some seen' := by
  induction roots generalizing seen with
  | nil => exact ⟨seen, rfl⟩
  | cons x roots ih =>
      obtain ⟨mid, hone⟩ := hvisit x seen (hroots x (List.mem_cons_self ..)) hfuel
      have hless := unmarked_mono (U := U) (fun y hy => (visit_explored hone).subset hy)
      obtain ⟨seen', hrest⟩ := ih (fun y hy => hroots y (List.mem_cons_of_mem _ hy)) (Nat.lt_of_le_of_lt hless hfuel)
      refine ⟨seen', ?_⟩
      unfold visitAll
      rw [List.foldlM_cons, hone]
      exact hrest

/-- Every level of the search marks a node, so it is no deeper than there are nodes to mark. -/
theorem visit_some (hU : ∀ y ∈ U, ∀ z ∈ next y, z ∈ U) {fuel : Nat} {x : α} (hx : x ∈ U)
    (hfuel : (unmarked U seen).card < fuel) : ∃ seen', visit next fuel x seen = some seen' := by
  induction fuel generalizing x seen with
  | zero => exact absurd hfuel (Nat.not_lt_zero _)
  | succ fuel ih =>
      unfold visit
      by_cases hin : x ∈ seen
      · rw [if_pos hin]
        exact ⟨seen, rfl⟩
      · rw [if_neg hin]
        have hless := unmarked_cons hx hin
        exact visitAll_some_of (fun _ _ hy hlt => ih hy hlt) (hU x hx) (by omega)

theorem visitAll_some (hU : ∀ y ∈ U, ∀ z ∈ next y, z ∈ U) {fuel : Nat} (hroots : ∀ x ∈ roots, x ∈ U)
    (hfuel : (unmarked U seen).card < fuel) : ∃ seen', visitAll next fuel roots seen = some seen' :=
  visitAll_some_of (fun _ _ hx hlt => visit_some hU hx hlt) hroots hfuel

end Depth

end Search

end Lib
end DistributedLabs
