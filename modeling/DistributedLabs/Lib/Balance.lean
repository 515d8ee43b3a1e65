import Mathlib.Algebra.BigOperators.Ring.Finset
import Mathlib.Algebra.Order.BigOperators.Group.Finset
import Mathlib.Data.Fintype.Basic
import Mathlib.Order.Lattice
import Mathlib.Tactic.Ring

/-!
# `Lib.Balance` — moving items between groups, one at a time, as few as possible

An assignment gives every item a group. Two kinds of step change it: an item whose group does not count goes to
a lightest group (`fill`), and an item of a heaviest group goes to a lightest group that is lighter by at least
two (`move`). `Thrifty a b` says what these steps keep true of the assignment `b` they have made of `a`: a group
has lost items or received items but not both, a group that lost items is among the heaviest and one that
received items among the lightest, and no receiver is heavier than a loser.

This is enough for everything: such a `b` differs from `a` in as few items as any balanced assignment does
(`Thrifty.changed_le`), a new group is the only kind that receives when `a` was balanced before
(`Thrifty.receivers_new`), and a group that was given up is the only kind that loses then
(`Thrifty.losers_gone`).
-/

namespace DistributedLabs
namespace Lib

open Finset

variable {ι γ : Type} [Fintype ι] [DecidableEq γ]

/-- How many items are in a group. -/
def load (a : ι → γ) (g : γ) : Nat := (univ.filter (fun i => a i = g)).card

/-- How many items are in a group before and after. -/
def keptIn (a b : ι → γ) (g : γ) : Nat := (univ.filter (fun i => a i = g ∧ b i = g)).card

/-- How many items are not where they were. -/
def changed (a b : ι → γ) : Nat := (univ.filter (fun i => a i ≠ b i)).card

/-- Any two groups differ by at most one item. -/
def Balanced (G : Finset γ) (a : ι → γ) : Prop := ∀ g ∈ G, ∀ h ∈ G, load a g ≤ load a h + 1

/-! ## One item is moved -/

/-- An item whose group has more is not in the group with less. -/
theorem ne_of_gap {b : ι → γ} {i : ι} {l : γ} (hgap : load b l + 2 ≤ load b (b i)) : b i ≠ l := by
  intro heq
  rw [heq] at hgap
  omega

section Update

variable [DecidableEq ι] {a b : ι → γ} {i : ι} {l g : γ}

theorem load_update_target (h : b i ≠ l) : load (Function.update b i l) l = load b l + 1 := by
  have hset : univ.filter (fun j => Function.update b i l j = l)
      = insert i (univ.filter (fun j => b j = l)) := by
    ext j
    by_cases hj : j = i
    · subst hj
      simp
    · simp [hj]
  unfold load
  rw [hset, card_insert_of_notMem (by simpa using h)]

theorem load_update_source (h : b i ≠ l) :
    load (Function.update b i l) (b i) + 1 = load b (b i) := by
  have hset : univ.filter (fun j => Function.update b i l j = b i)
      = (univ.filter (fun j => b j = b i)).erase i := by
    ext j
    by_cases hj : j = i
    · subst hj
      simpa using h.symm
    · simp [hj]
  unfold load
  rw [hset]
  exact card_erase_add_one (by simp)

theorem load_update_other (hl : g ≠ l) (hi : g ≠ b i) : load (Function.update b i l) g = load b g := by
  unfold load
  congr 1
  ext j
  by_cases hj : j = i
  · subst hj
    simp [hl.symm, hi.symm]
  · simp [hj]

/-- An item that leaves its old place is no longer kept there. -/
theorem keptIn_update_source (hi : b i = a i) (hl : l ≠ a i) :
    keptIn a (Function.update b i l) (a i) + 1 = keptIn a b (a i) := by
  have hset : univ.filter (fun j => a j = a i ∧ Function.update b i l j = a i)
      = (univ.filter (fun j => a j = a i ∧ b j = a i)).erase i := by
    ext j
    by_cases hj : j = i
    · subst hj
      simpa using hl
    · simp [hj]
  unfold keptIn
  rw [hset]
  exact card_erase_add_one (by simp [hi])

theorem keptIn_update_other (hg : g ≠ a i) : keptIn a (Function.update b i l) g = keptIn a b g := by
  unfold keptIn
  congr 1
  ext j
  by_cases hj : j = i
  · subst hj
    simp [hg.symm]
  · simp [hj]

end Update

/-! ## Items that stay -/

section Kept

variable {a b : ι → γ} {i : ι} {g : γ}

theorem keptIn_le_right (a b : ι → γ) (g : γ) : keptIn a b g ≤ load b g :=
  card_le_card (fun j hj => by
    simp only [mem_filter, mem_univ, true_and] at hj ⊢
    exact hj.2)

theorem keptIn_le_left (a b : ι → γ) (g : γ) : keptIn a b g ≤ load a g :=
  card_le_card (fun j hj => by
    simp only [mem_filter, mem_univ, true_and] at hj ⊢
    exact hj.1)

/-- A group all of whose items were there before. -/
theorem eq_of_keptIn_eq_right (h : load b g ≤ keptIn a b g) (hi : b i = g) : a i = g := by
  have hsub : univ.filter (fun j => a j = g ∧ b j = g) ⊆ univ.filter (fun j => b j = g) := by
    intro j hj
    simp only [mem_filter, mem_univ, true_and] at hj ⊢
    exact hj.2
  have heq := eq_of_subset_of_card_le hsub h
  have hmem : i ∈ univ.filter (fun j => b j = g) := by simpa using hi
  rw [← heq] at hmem
  simpa using (mem_filter.mp hmem).2.1

/-- A group all of whose items are still there. -/
theorem eq_of_keptIn_eq_left (h : load a g ≤ keptIn a b g) (hi : a i = g) : b i = g := by
  have hsub : univ.filter (fun j => a j = g ∧ b j = g) ⊆ univ.filter (fun j => a j = g) := by
    intro j hj
    simp only [mem_filter, mem_univ, true_and] at hj ⊢
    exact hj.1
  have heq := eq_of_subset_of_card_le hsub h
  have hmem : i ∈ univ.filter (fun j => a j = g) := by simpa using hi
  rw [← heq] at hmem
  simpa using (mem_filter.mp hmem).2.2

/-- Items are counted group by group. -/
theorem sum_load {G : Finset γ} (h : ∀ i, b i ∈ G) : ∑ g ∈ G, load b g = Fintype.card ι :=
  (card_eq_sum_card_fiberwise (s := univ) (fun i _ => h i)).symm

theorem sum_load_le (b : ι → γ) (G : Finset γ) : ∑ g ∈ G, load b g ≤ Fintype.card ι := by
  classical
  unfold load
  rw [← card_biUnion]
  · exact card_le_univ _
  · intro g _ h _ hne
    refine disjoint_left.mpr (fun i hg hh => hne ?_)
    exact (mem_filter.mp hg).2.symm.trans (mem_filter.mp hh).2

/-- With no more groups than items, a balanced assignment leaves no group empty. -/
theorem Balanced.load_pos {G : Finset γ} (hbal : Balanced G b) (h : ∀ i, b i ∈ G)
    (hcard : G.card ≤ Fintype.card ι) (hg : g ∈ G) : 0 < load b g := by
  by_contra hzero
  have hone : ∀ g' ∈ G.erase g, load b g' ≤ 1 := by
    intro g' hg'
    have := hbal g' (mem_of_mem_erase hg') g hg
    omega
  have hrest : ∑ g' ∈ G.erase g, load b g' ≤ (G.erase g).card := by
    simpa using sum_le_card_nsmul (G.erase g) (load b) 1 hone
  have hsum := sum_load h
  rw [← add_sum_erase G (load b) hg] at hsum
  have hpos : 0 < G.card := card_pos.mpr ⟨g, hg⟩
  rw [card_erase_of_mem hg] at hrest
  omega

/-- Items that stay and items that move are all items. -/
theorem sum_keptIn {G : Finset γ} (h : ∀ i, b i ∈ G) :
    ∑ g ∈ G, keptIn a b g + changed a b = Fintype.card ι := by
  have hkept : (univ.filter (fun i => a i = b i)).card = ∑ g ∈ G, keptIn a b g := by
    rw [card_eq_sum_card_fiberwise (fun i _ => h i)]
    refine sum_congr rfl (fun g _ => congrArg card ?_)
    ext i
    simp only [mem_filter, mem_univ, true_and]
    constructor
    · rintro ⟨hab, rfl⟩
      exact ⟨hab, rfl⟩
    · rintro ⟨ha, hb⟩
      exact ⟨ha.trans hb.symm, hb⟩
  rw [← hkept]
  exact card_filter_add_card_filter_not _

end Kept

/-! ## What the steps keep -/

/-- What `fill` and `move` steps have made of an assignment. -/
structure Thrifty (G : Finset γ) (a b : ι → γ) : Prop where
  kept : ∀ g ∈ G, keptIn a b g = min (load a g) (load b g)
  heavy : ∀ g ∈ G, load b g < load a g → ∀ h ∈ G, load b h ≤ load b g + 1
  light : ∀ g ∈ G, load a g < load b g → ∀ h ∈ G, load b g ≤ load b h + 1
  cross : ∀ g ∈ G, load b g < load a g → ∀ h ∈ G, load a h < load b h → load b h ≤ load b g

theorem Thrifty.refl (G : Finset γ) (a : ι → γ) : Thrifty G a a where
  kept g _ := by simp [keptIn, load]
  heavy g _ h := absurd h (Nat.lt_irrefl _)
  light g _ h := absurd h (Nat.lt_irrefl _)
  cross g _ h := absurd h (Nat.lt_irrefl _)

section Steps

variable {G : Finset γ} {a b : ι → γ} {i : ι} {l : γ}

/-- In a heaviest group that is to lose an item, all items were there from the start. -/
theorem Thrifty.source (h : Thrifty G a b) (hm : b i ∈ G) (hl : l ∈ G)
    (hgap : load b l + 2 ≤ load b (b i)) : a i = b i ∧ load b (b i) ≤ load a (b i) := by
  have hle : load b (b i) ≤ load a (b i) := by
    by_contra hgot
    have := h.light (b i) hm (by omega) l hl
    omega
  refine ⟨eq_of_keptIn_eq_right ?_ rfl, hle⟩
  rw [h.kept _ hm, Nat.min_eq_right hle]

/-- A lightest group that is to receive an item has lost none. -/
theorem Thrifty.target (h : Thrifty G a b) (hm : b i ∈ G) (hl : l ∈ G)
    (hgap : load b l + 2 ≤ load b (b i)) : load a l ≤ load b l := by
  by_contra hlost
  have := h.heavy l hl (by omega) (b i) hm
  omega

variable [DecidableEq ι]

/-- An item whose group does not count goes to a lightest group, before any group has lost an item. -/
theorem Thrifty.fill (h : Thrifty G a b) (hnone : ∀ g ∈ G, load a g ≤ load b g) (hi : b i = a i)
    (hout : a i ∉ G) (hl : l ∈ G) (hleast : ∀ g ∈ G, load b l ≤ load b g) :
    Thrifty G a (Function.update b i l) ∧ ∀ g ∈ G, load a g ≤ load (Function.update b i l) g := by
  have hne : ∀ g ∈ G, g ≠ a i := fun g hg heq => hout (heq ▸ hg)
  -- the item comes from outside, so the lightest group gains one and no group loses any
  have hself : load (Function.update b i l) l = load b l + 1 :=
    load_update_target (by rw [hi]; exact (hne l hl).symm)
  have hother : ∀ g ∈ G, g ≠ l → load (Function.update b i l) g = load b g :=
    fun g hg hgl => load_update_other hgl (by rw [hi]; exact hne g hg)
  have hup : ∀ g ∈ G, load b g ≤ load (Function.update b i l) g := by
    intro g hg
    by_cases hgl : g = l
    · rw [hgl, hself]
      omega
    · rw [hother g hg hgl]
  have hnone' : ∀ g ∈ G, load a g ≤ load (Function.update b i l) g :=
    fun g hg => Nat.le_trans (hnone g hg) (hup g hg)
  refine ⟨⟨?_, ?_, ?_, ?_⟩, hnone'⟩
  · intro g hg
    have hk := h.kept g hg
    rw [Nat.min_eq_left (hnone g hg)] at hk
    rw [keptIn_update_other (hne g hg), hk, Nat.min_eq_left (hnone' g hg)]
  · intro g hg hlost
    exact absurd hlost (Nat.not_lt.mpr (hnone' g hg))
  · intro g hg hgot h' hh'
    have hge := hup h' hh'
    by_cases hgl : g = l
    · rw [hgl, hself]
      have := hleast h' hh'
      omega
    · rw [hother g hg hgl] at hgot ⊢
      exact Nat.le_trans (h.light g hg hgot h' hh') (by omega)
  · intro g hg hlost
    exact absurd hlost (Nat.not_lt.mpr (hnone' g hg))

/-- An item of a heaviest group goes to a lightest one. -/
theorem Thrifty.move (h : Thrifty G a b) (hm : b i ∈ G) (hmost : ∀ g ∈ G, load b g ≤ load b (b i))
    (hl : l ∈ G) (hleast : ∀ g ∈ G, load b l ≤ load b g) (hgap : load b l + 2 ≤ load b (b i)) :
    Thrifty G a (Function.update b i l) := by
  obtain ⟨hai, hmle⟩ := h.source hm hl hgap
  have hlge : load a l ≤ load b l := h.target hm hl hgap
  have hml : b i ≠ l := ne_of_gap hgap
  have htarget : load (Function.update b i l) l = load b l + 1 := load_update_target hml
  have hsource : load (Function.update b i l) (b i) + 1 = load b (b i) := load_update_source hml
  have hother : ∀ g, g ≠ l → g ≠ b i → load (Function.update b i l) g = load b g :=
    fun g hgl hgm => load_update_other hgl hgm
  -- the new loads stay between the old extremes
  have hbounds : ∀ g ∈ G, load b l ≤ load (Function.update b i l) g
      ∧ load (Function.update b i l) g ≤ load b (b i) := by
    intro g hg
    have hlow := hleast g hg
    have hhigh := hmost g hg
    by_cases hgl : g = l
    · rw [hgl, htarget]
      omega
    · by_cases hgm : g = b i
      · rw [hgm]
        omega
      · rw [hother g hgl hgm]
        exact ⟨hlow, hhigh⟩
  -- a group that has lost items is the source or had lost them before, and likewise for receivers
  have hlost : ∀ g, load (Function.update b i l) g < load a g →
      g = b i ∨ load (Function.update b i l) g = load b g := by
    intro g hlt
    by_cases hgm : g = b i
    · exact Or.inl hgm
    · refine Or.inr (hother g (fun hgl => ?_) hgm)
      rw [hgl, htarget] at hlt
      omega
  have hgot : ∀ g, load a g < load (Function.update b i l) g →
      g = l ∨ load (Function.update b i l) g = load b g := by
    intro g hlt
    by_cases hgl : g = l
    · exact Or.inl hgl
    · refine Or.inr (hother g hgl (fun hgm => ?_))
      rw [hgm] at hlt
      omega
  refine ⟨?_, ?_, ?_, ?_⟩
  · intro g hg
    have hk := h.kept g hg
    by_cases hgm : g = b i
    · have hkept := keptIn_update_source (b := b) (l := l) hai.symm (by rw [hai]; exact hml.symm)
      rw [hai] at hkept
      rw [hgm] at hk ⊢
      omega
    · rw [keptIn_update_other (by rwa [hai]), hk]
      by_cases hgl : g = l
      · rw [hgl, htarget]
        omega
      · rw [hother g hgl hgm]
  · intro g hg hlt h' hh'
    have hhigh := (hbounds h' hh').2
    rcases hlost g hlt with rfl | hsame
    · omega
    · rw [hsame] at hlt ⊢
      have := h.heavy g hg hlt (b i) hm
      omega
  · intro g hg hlt h' hh'
    have hlow := (hbounds h' hh').1
    rcases hgot g hlt with rfl | hsame
    · omega
    · rw [hsame] at hlt ⊢
      have := h.light g hg hlt l hl
      omega
  · intro g hg hlt h' hh' hlt'
    rcases hlost g hlt with rfl | hsame <;> rcases hgot h' hlt' with rfl | hsame'
    · omega
    · rw [hsame'] at hlt' ⊢
      have := h.light h' hh' hlt' l hl
      omega
    · rw [hsame] at hlt ⊢
      have := h.heavy g hg hlt (b i) hm
      omega
    · rw [hsame] at hlt ⊢
      rw [hsame'] at hlt' ⊢
      exact h.cross g hg hlt h' hh' hlt'

end Steps

/-! ## As few items as possible -/

section Optimal

variable {G : Finset γ} {a b t : ι → γ}

omit [DecidableEq γ] in
/-- The exchange argument, group by group: a balanced `y` of the same total keeps no more of `c` than `x` does,
    if in `x` no receiver is heavier than a loser. -/
theorem sum_min_le {c x y : γ → Nat} (hcross : ∀ g ∈ G, x g < c g → ∀ h ∈ G, c h < x h → x h ≤ x g)
    (hy : ∀ g ∈ G, ∀ h ∈ G, y g ≤ y h + 1) (hsum : ∑ g ∈ G, x g = ∑ g ∈ G, y g) :
    ∑ g ∈ G, min (c g) (y g) ≤ ∑ g ∈ G, min (c g) (x g) := by
  by_cases hloser : ∃ g ∈ G, x g < c g ∧ x g < y g
  · -- `y` would keep more in `g`, so wherever `y` is below `x` it keeps less
    obtain ⟨g, hg, hgc, hgy⟩ := hloser
    have hpoint : ∀ h ∈ G, min (c h) (y h) + x h ≤ min (c h) (x h) + y h := by
      intro h hh
      have hbal := hy g hg h hh
      by_cases hgot : c h < x h
      · have := hcross g hg hgc h hh hgot
        omega
      · omega
    have hall := sum_le_sum hpoint
    rw [sum_add_distrib, sum_add_distrib, hsum] at hall
    omega
  · push Not at hloser
    refine sum_le_sum (fun g hg => ?_)
    have := hloser g hg
    by_cases hgc : x g < c g
    · have := this hgc
      omega
    · omega

/-- No balanced assignment to the groups differs from `a` in fewer items. -/
theorem Thrifty.changed_le (h : Thrifty G a b) (hb : ∀ i, b i ∈ G) (ht : ∀ i, t i ∈ G)
    (hbal : Balanced G t) : changed a b ≤ changed a t := by
  have hkept : ∑ g ∈ G, keptIn a t g ≤ ∑ g ∈ G, keptIn a b g := by
    calc ∑ g ∈ G, keptIn a t g
        ≤ ∑ g ∈ G, min (load a g) (load t g) :=
          sum_le_sum (fun g _ => Nat.le_min.mpr ⟨keptIn_le_left a t g, keptIn_le_right a t g⟩)
      _ ≤ ∑ g ∈ G, min (load a g) (load b g) :=
          sum_min_le h.cross hbal ((sum_load hb).trans (sum_load ht).symm)
      _ = ∑ g ∈ G, keptIn a b g := sum_congr rfl (fun g hg => (h.kept g hg).symm)
  have hb' := sum_keptIn (a := a) hb
  have ht' := sum_keptIn (a := a) ht
  omega

/-- An item that was moved came to a group that has received items. -/
theorem Thrifty.received (h : Thrifty G a b) {i : ι} (hi : b i ≠ a i) (hg : b i ∈ G) :
    load a (b i) < load b (b i) := by
  by_contra hle
  refine hi (eq_of_keptIn_eq_right (a := a) ?_ rfl).symm
  rw [h.kept _ hg]
  omega

/-- An item that was moved left a group that has lost items. -/
theorem Thrifty.lost (h : Thrifty G a b) {i : ι} (hi : b i ≠ a i) (hg : a i ∈ G) :
    load b (a i) < load a (a i) := by
  by_contra hle
  refine hi (eq_of_keptIn_eq_left ?_ rfl)
  rw [h.kept _ hg]
  omega

omit [DecidableEq γ] in
/-- Somebody loses what somebody else receives. -/
theorem exists_lt_of_sum_le {H : Finset γ} {x y : γ → Nat} (hsum : ∑ g ∈ H, x g ≤ ∑ g ∈ H, y g) {g : γ}
    (hg : g ∈ H) (hlt : y g < x g) : ∃ h ∈ H, x h < y h := by
  by_contra hnone
  push Not at hnone
  have := sum_lt_sum hnone ⟨g, hg, hlt⟩
  omega

/-- If the items were balanced over some of the groups, only the other groups receive items. -/
theorem Thrifty.receivers_new (h : Thrifty G a b) {H : Finset γ} (hsub : H ⊆ G) (ha : ∀ i, a i ∈ H)
    (hbal : Balanced H a) {i : ι} (hi : b i ≠ a i) (hbi : b i ∈ G) : b i ∉ H := by
  intro hH
  have hgot := h.received hi hbi
  have hsum : ∑ g ∈ H, load b g ≤ ∑ g ∈ H, load a g := by
    rw [sum_load ha]
    exact sum_load_le b H
  obtain ⟨g, hg, hlost⟩ := exists_lt_of_sum_le hsum hH hgot
  have hcross := h.cross g (hsub hg) hlost (b i) hbi hgot
  have := hbal g hg (b i) hH
  omega

/-- If the items were balanced over the groups and some that are gone, only items of those are moved. -/
theorem Thrifty.losers_gone (h : Thrifty G a b) {H : Finset γ} (hsub : G ⊆ H) (hbal : Balanced H a)
    (hb : ∀ i, b i ∈ G) {i : ι} (hi : b i ≠ a i) : a i ∉ G := by
  intro hG
  have hlost := h.lost hi hG
  have hsum : ∑ g ∈ G, load a g ≤ ∑ g ∈ G, load b g := by
    rw [sum_load hb]
    exact sum_load_le a G
  obtain ⟨g, hg, hgot⟩ := exists_lt_of_sum_le hsum hG hlost
  have hcross := h.cross (a i) hG hlost g hg hgot
  have := hbal (a i) (hsub hG) g (hsub hg)
  omega

end Optimal

/-! ## A measure -/

section Measure

variable {G : Finset γ} {b : ι → γ} {i : ι} {l : γ}

/-- The sum of the squares of the loads. -/
def imbalance (G : Finset γ) (b : ι → γ) : Nat := ∑ g ∈ G, load b g ^ 2

theorem imbalance_le (G : Finset γ) (b : ι → γ) : imbalance G b ≤ Fintype.card ι ^ 2 := by
  have hle : imbalance G b ≤ (∑ g ∈ G, load b g) ^ 2 := by
    unfold imbalance
    rw [sq, sum_mul]
    refine sum_le_sum (fun g hg => ?_)
    rw [sq]
    exact Nat.mul_le_mul_left _ (single_le_sum (fun _ _ => Nat.zero_le _) hg)
  exact Nat.le_trans hle (Nat.pow_le_pow_left (sum_load_le b G) 2)

/-- Each move makes it smaller. -/
theorem imbalance_move [DecidableEq ι] (hm : b i ∈ G) (hl : l ∈ G) (hgap : load b l + 2 ≤ load b (b i)) :
    imbalance G (Function.update b i l) < imbalance G b := by
  have hml : b i ≠ l := ne_of_gap hgap
  have htarget : load (Function.update b i l) l = load b l + 1 := load_update_target hml
  have hsource : load (Function.update b i l) (b i) + 1 = load b (b i) := load_update_source hml
  have hrest : ∑ g ∈ (G.erase (b i)).erase l, load (Function.update b i l) g ^ 2
      = ∑ g ∈ (G.erase (b i)).erase l, load b g ^ 2 := by
    refine sum_congr rfl (fun g hg => ?_)
    obtain ⟨hgl, hg'⟩ := mem_erase.mp hg
    rw [load_update_other hgl (mem_erase.mp hg').1]
  have hl' : l ∈ G.erase (b i) := mem_erase.mpr ⟨hml.symm, hl⟩
  unfold imbalance
  rw [← add_sum_erase G _ hm, ← add_sum_erase G _ hm, ← add_sum_erase _ _ hl', ← add_sum_erase _ _ hl',
    hrest, htarget, ← hsource]
  have hsq : ∀ n : Nat, (n + 1) ^ 2 = n ^ 2 + 2 * n + 1 := fun n => by ring
  rw [hsq, hsq]
  omega

end Measure

end Lib
end DistributedLabs
