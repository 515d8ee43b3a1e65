import Mathlib.Algebra.GroupWithZero.Nat
import Mathlib.Algebra.Order.BigOperators.Group.List
import Mathlib.Algebra.Order.Group.Nat
import Mathlib.Data.List.Basic

/-!
# `Lib.Pool` — a growing list of processes

Processes are numbered in the order in which they are started. One that takes a step is replaced in its place
(`List.set`), one that is started is added at the end.

* `set_cases` / `snoc_cases` — what is in the pool afterwards;
* `HasAt` — a property of one process, and what a step of another does to it (`hasAt_set`, `hasAt_snoc`);
* `(l.map w).sum` is the sum of a weight over the pool, for counts of processes and for the work that is left;
  `sum_map_set` says how a step of one process changes it;
* `unspent` — a cost that is paid once for each item, and what is left to pay (`sum_unspent_cons`).

A weight that is 0 or 1 counts the processes with a property, so one lemma serves for invariants about numbers of
processes and for measures.
-/

namespace DistributedLabs
namespace Lib

section Pool

variable {π : Type} {l : List π} {i j : Nat} {p q : π}

/-- A process after a step is the one that took it, or as before. -/
theorem set_cases (h : (l.set i q)[j]? = some p) : (j = i ∧ p = q) ∨ (j ≠ i ∧ l[j]? = some p) := by
  rw [List.getElem?_set] at h
  split at h
  · rename_i hij
    split at h
    · exact Or.inl ⟨hij.symm, (Option.some.inj h).symm⟩
    · cases h
  · rename_i hij
    exact Or.inr ⟨fun heq => hij heq.symm, h⟩

theorem set_self (h : l[i]? = some p) (q : π) : (l.set i q)[i]? = some q := by
  obtain ⟨hlt, _⟩ := List.getElem?_eq_some_iff.mp h
  exact List.getElem?_set_self hlt

theorem set_other (hne : j ≠ i) (h : l[j]? = some p) (q : π) : (l.set i q)[j]? = some p := by
  rw [List.getElem?_set_ne (Ne.symm hne)]
  exact h

theorem snoc_cases (h : (l ++ [q])[j]? = some p) : (j = l.length ∧ p = q) ∨ l[j]? = some p := by
  rcases Nat.lt_or_ge j l.length with hlt | hge
  · rw [List.getElem?_append_left hlt] at h
    exact Or.inr h
  · rw [List.getElem?_append_right hge] at h
    obtain ⟨hlt, heq⟩ := List.getElem?_eq_some_iff.mp h
    have hzero : j - l.length = 0 := Nat.lt_one_iff.mp hlt
    refine Or.inl ⟨by omega, ?_⟩
    simp only [hzero, List.getElem_cons_zero] at heq
    exact heq.symm

theorem snoc_last (l : List π) (q : π) : (l ++ [q])[l.length]? = some q := by
  rw [List.getElem?_append_right (Nat.le_refl _), Nat.sub_self]
  rfl

theorem snoc_old (h : l[j]? = some p) (q : π) : (l ++ [q])[j]? = some p := by
  obtain ⟨hlt, _⟩ := List.getElem?_eq_some_iff.mp h
  rw [List.getElem?_append_left hlt]
  exact h

theorem lt_length (h : l[j]? = some p) : j < l.length :=
  (List.getElem?_eq_some_iff.mp h).1

/-- What a step does not change is the same all over the pool. -/
theorem map_set_same {α : Type} {f : π → α} (h : l[i]? = some p) (hf : f q = f p) :
    (l.set i q).map f = l.map f := by
  obtain ⟨hlt, hp⟩ := List.getElem?_eq_some_iff.mp h
  rw [List.map_set, hf, ← hp, ← List.getElem_map f (h := by rwa [List.length_map])]
  exact List.set_getElem_self _

/-- Process `i` has a property. -/
def HasAt (l : List π) (i : Nat) (P : π → Prop) : Prop := ∃ p, l[i]? = some p ∧ P p

variable {P : π → Prop}

theorem hasAt_iff (h : l[i]? = some p) : HasAt l i P ↔ P p := by
  constructor
  · rintro ⟨p', hp', hP⟩
    rw [h] at hp'
    cases hp'
    exact hP
  · exact fun hP => ⟨p, h, hP⟩

theorem hasAt_set (h : l[i]? = some p) : HasAt (l.set i q) j P ↔ (j = i ∧ P q) ∨ (j ≠ i ∧ HasAt l j P) := by
  constructor
  · rintro ⟨r, hr, hP⟩
    rcases set_cases hr with ⟨rfl, rfl⟩ | ⟨hne, hr⟩
    · exact Or.inl ⟨rfl, hP⟩
    · exact Or.inr ⟨hne, r, hr, hP⟩
  · rintro (⟨rfl, hP⟩ | ⟨hne, r, hr, hP⟩)
    · exact ⟨q, set_self h q, hP⟩
    · exact ⟨r, set_other hne hr q, hP⟩

/-- A process that is replaced by one that has the property just as well. -/
theorem hasAt_set_of_iff (h : l[i]? = some p) (hP : P q ↔ P p) : HasAt (l.set i q) j P ↔ HasAt l j P := by
  rw [hasAt_set h]
  by_cases hj : j = i
  · subst hj
    simp [hasAt_iff h, hP]
  · simp [hj]

theorem hasAt_snoc : HasAt (l ++ [q]) j P ↔ (j = l.length ∧ P q) ∨ HasAt l j P := by
  constructor
  · rintro ⟨r, hr, hP⟩
    rcases snoc_cases hr with ⟨rfl, rfl⟩ | hr
    · exact Or.inl ⟨rfl, hP⟩
    · exact Or.inr ⟨r, hr, hP⟩
  · rintro (⟨rfl, hP⟩ | ⟨r, hr, hP⟩)
    · exact ⟨q, snoc_last l q, hP⟩
    · exact ⟨r, snoc_old hr q, hP⟩

/-! ## Sums -/

variable {w : π → Nat}

/-- The sum of a weight changes by what the process that takes a step changes. -/
theorem sum_map_set (h : l[i]? = some p) (q : π) : ((l.set i q).map w).sum + w p = (l.map w).sum + w q := by
  induction l generalizing i with
  | nil => cases h
  | cons r l ih =>
      cases i with
      | zero =>
          cases h
          simp only [List.set_cons_zero, List.map_cons, List.sum_cons]
          omega
      | succ i =>
          have hrest := ih (i := i) h
          simp only [List.set_cons_succ, List.map_cons, List.sum_cons]
          omega

theorem exists_of_sum_pos (h : 0 < (l.map w).sum) : ∃ (i : Nat) (p : π), l[i]? = some p ∧ 0 < w p := by
  obtain ⟨x, hx, hpos⟩ := List.sum_pos_iff_exists_pos_nat.mp h
  obtain ⟨p, hp, rfl⟩ := List.mem_map.mp hx
  obtain ⟨i, hi⟩ := List.mem_iff_getElem?.mp hp
  exact ⟨i, p, hi, hpos⟩

theorem sum_map_eq_zero (h : ∀ (i : Nat) (p : π), l[i]? = some p → w p = 0) : (l.map w).sum = 0 := by
  refine List.sum_eq_zero_iff_forall_eq_nat.mpr (fun x hx => ?_)
  obtain ⟨p, hp, rfl⟩ := List.mem_map.mp hx
  obtain ⟨i, hi⟩ := List.mem_iff_getElem?.mp hp
  exact h i p hi

/-- A pool that is a function of the number. -/
theorem map_range_update (f : Nat → π) (i : Nat) (q : π) (n : Nat) :
    (List.range n).map (Function.update f i q) = ((List.range n).map f).set i q := by
  refine List.ext_getElem? (fun j => ?_)
  by_cases hj : j < n
  · by_cases hij : j = i
    · subst hij
      simp [hj]
    · simp [hj, hij, Ne.symm hij]
  · simp [hj]

/-! ## Costs that are paid once -/

section Unspent

variable [DecidableEq π] {cost : π → Nat} {paid : List π} {x : π}

/-- What is still to be paid for `y`. -/
def unspent (cost : π → Nat) (paid : List π) (y : π) : Nat := if y ∈ paid then 0 else cost y

theorem unspent_cons_le (cost : π → Nat) (paid : List π) (x y : π) :
    unspent cost (x :: paid) y ≤ unspent cost paid y := by
  unfold unspent
  by_cases hy : y ∈ paid
  · rw [if_pos (List.mem_cons_of_mem _ hy)]
    exact Nat.zero_le _
  · rw [if_neg hy]
    split
    · exact Nat.zero_le _
    · exact Nat.le_refl _

/-- Paying for `x` lowers the sum by its cost, or more if `x` occurs more than once. -/
theorem sum_unspent_cons (hx : x ∈ l) (hnew : x ∉ paid) :
    (l.map (unspent cost (x :: paid))).sum + cost x ≤ (l.map (unspent cost paid)).sum := by
  induction l with
  | nil => cases hx
  | cons r l ih =>
      simp only [List.map_cons, List.sum_cons]
      rcases List.mem_cons.mp hx with rfl | hx
      · have hrest : (l.map (unspent cost (x :: paid))).sum ≤ (l.map (unspent cost paid)).sum :=
          List.sum_le_sum (fun y _ => unspent_cons_le cost paid x y)
        rw [unspent, if_pos (List.mem_cons_self ..), unspent, if_neg hnew]
        omega
      · have hrest := ih hx
        have hr := unspent_cons_le cost paid x r
        omega

end Unspent

end Pool

end Lib
end DistributedLabs
