import Mathlib.Data.List.Dedup
import Mathlib.Data.List.Perm.Basic
import Mathlib.Data.List.Sort
import Mathlib.Data.List.Nodup
import Mathlib.Data.List.TakeWhile
import Mathlib.Order.Lattice

/-!
# `Lib.Grouping` — adjacent entries with equal keys, and what sorting and partitioning leave of them

`groups` collects runs of adjacent entries with the same key. On a list sorted by key it finds every key once,
with all of its values (`groups_sorted`), so what is computed from the groups depends only
on the list as a multiset when it does not depend on the order of the values (`groups_perm`,
`groups_unique`), and it can be computed part by part when the keys are distributed over parts
(`distinctKeys_perm_parts`).

* `valuesOf`, `distinctKeys` — what there is to a list besides its order: the keys, and the values of each;
* `sortedSet` — the keys in increasing order, which is how the groups of a sorted list stand
  (`groups_map_sortedSet`);
* `partOf` — the entries of one part. A key has all its values in its own part (`valuesOf_partOf`).

Keys and values are of any type; only sorting asks for an order on the keys.
-/

namespace DistributedLabs
namespace Lib

/-- Behind the longest run that satisfies a predicate. -/
theorem drop_length_takeWhile {α : Type} (p : α → Bool) (l : List α) :
    l.drop (l.takeWhile p).length = l.dropWhile p := by
  calc l.drop (l.takeWhile p).length
      = (l.takeWhile p ++ l.dropWhile p).drop (l.takeWhile p).length := by
        rw [List.takeWhile_append_dropWhile]
    _ = l.dropWhile p := List.drop_left

section Groups

variable {α κ β : Type} [DecidableEq κ] (key : α → κ) (val : α → β)

/-- Runs of adjacent entries with one key, with their values. -/
def groups : List α → List (κ × List β)
  | [] => []
  | a :: rest =>
      match groups rest with
      | [] => [(key a, [val a])]
      | (k, vs) :: gs => if k = key a then (k, val a :: vs) :: gs else (key a, [val a]) :: (k, vs) :: gs

/-- All values of a key. -/
def valuesOf (k : κ) (l : List α) : List β := (l.filter (fun a => key a = k)).map val

/-- The keys that occur, once each. -/
def distinctKeys (l : List α) : List κ := (l.map key).dedup

/-- The first group is the longest run from the front. -/
theorem groups_cons (a : α) (rest : List α) :
    groups key val (a :: rest)
      = (key a, val a :: (rest.takeWhile (fun b => key b = key a)).map val)
        :: groups key val (rest.dropWhile (fun b => key b = key a)) := by
  induction rest generalizing a with
  | nil => rfl
  | cons b rest ih =>
      rw [groups, ih b]
      by_cases hk : key b = key a
      · simp [hk]
      · simp [hk, ih b]

/-- The keys of the groups are those that occur. -/
theorem mem_groups_keys {k : κ} {l : List α} :
    k ∈ (groups key val l).map Prod.fst ↔ ∃ a ∈ l, key a = k := by
  induction l with
  | nil => simp [groups]
  | cons a rest ih =>
      rw [List.exists_mem_cons_iff, ← ih, groups]
      cases hg : groups key val rest with
      | nil => simp [eq_comm]
      | cons g gs =>
          obtain ⟨k', vs⟩ := g
          by_cases hk : k' = key a
          · subst hk
            simp [eq_comm]
          · simp [hk, eq_comm]

theorem valuesOf_append (k : κ) (l l' : List α) :
    valuesOf key val k (l ++ l') = valuesOf key val k l ++ valuesOf key val k l' := by
  simp [valuesOf]

theorem valuesOf_eq_nil {k : κ} {l : List α} (h : ∀ a ∈ l, key a ≠ k) : valuesOf key val k l = [] := by
  unfold valuesOf
  rw [List.filter_eq_nil_iff.mpr (fun a ha => by simpa using h a ha), List.map_nil]

theorem valuesOf_eq_map {k : κ} {l : List α} (h : ∀ a ∈ l, key a = k) :
    valuesOf key val k l = l.map val := by
  unfold valuesOf
  rw [List.filter_eq_self.mpr (fun a ha => by simpa using h a ha)]

theorem valuesOf_perm {l l' : List α} (h : l.Perm l') (k : κ) :
    (valuesOf key val k l).Perm (valuesOf key val k l') :=
  (h.filter _).map val

theorem distinctKeys_nodup (l : List α) : (distinctKeys key l).Nodup := List.nodup_dedup _

theorem mem_distinctKeys {k : κ} {l : List α} : k ∈ distinctKeys key l ↔ ∃ a ∈ l, key a = k := by
  unfold distinctKeys
  rw [List.mem_dedup, List.mem_map]

end Groups

section Sorted

variable {α κ β : Type} [LinearOrder κ] {key : α → κ} {val : α → β}

/-- Sorted by key, equal keys in any order. -/
def SortedBy (key : α → κ) (l : List α) : Prop := l.Pairwise (fun a b => key a ≤ key b)

/-- Behind a run of one key the key does not come back. -/
theorem SortedBy.dropWhile_ne {a : α} {rest : List α} (h : SortedBy key (a :: rest)) :
    ∀ b ∈ rest.dropWhile (fun b => key b = key a), key b ≠ key a := by
  have hge : ∀ b ∈ rest, key a ≤ key b := fun b hb => List.rel_of_pairwise_cons h hb
  have hrest : SortedBy key rest := List.Pairwise.of_cons h
  have hdrop : SortedBy key (rest.dropWhile (fun b => key b = key a)) :=
    hrest.sublist (List.dropWhile_sublist _)
  intro b hb
  cases hd : rest.dropWhile (fun b => key b = key a) with
  | nil => simp [hd] at hb
  | cons d ds =>
      have hne : key d ≠ key a := by
        have hhead := List.head_dropWhile_not (fun b => decide (key b = key a)) (l := rest) (by simp [hd])
        simpa [hd] using hhead
      have hlt : key a < key d :=
        lt_of_le_of_ne (hge d ((List.dropWhile_sublist _).subset (hd ▸ List.mem_cons_self ..))) hne.symm
      rw [hd] at hb hdrop
      rcases List.mem_cons.mp hb with rfl | hb
      · exact hne
      · exact ne_of_gt (lt_of_lt_of_le hlt (List.rel_of_pairwise_cons hdrop hb))

theorem SortedBy.dropWhile {a : α} {rest : List α} (h : SortedBy key (a :: rest)) :
    SortedBy key (rest.dropWhile (fun b => key b = key a)) :=
  List.Pairwise.sublist (List.dropWhile_sublist _) (List.Pairwise.of_cons h)

/-- In a sorted list each group has all the values of its key, and no key has two groups. -/
theorem groups_sorted {n : Nat} : ∀ {l : List α}, l.length ≤ n → SortedBy key l →
    ((groups key val l).map Prod.fst).Nodup ∧ ∀ g ∈ groups key val l, g.2 = valuesOf key val g.1 l := by
  induction n with
  | zero =>
      intro l hlen _
      obtain rfl := List.length_eq_zero_iff.mp (Nat.le_zero.mp hlen)
      simp [groups]
  | succ n ih =>
      intro l hlen hsorted
      cases l with
      | nil => simp [groups]
      | cons a rest =>
          have hsub := List.dropWhile_sublist (fun b => decide (key b = key a)) (l := rest)
          have hle := hsub.length_le
          -- the recursion is on what follows the first group, which is shorter
          have hshort : (rest.dropWhile (fun b => decide (key b = key a))).length ≤ n := by
            rw [List.length_cons] at hlen
            omega
          obtain ⟨hnodup, hvalues⟩ := ih hshort hsorted.dropWhile
          -- in a sorted list the key of the first group does not come back
          have hne := hsorted.dropWhile_ne
          have htake : ∀ b ∈ rest.takeWhile (fun b => decide (key b = key a)), key b = key a := by
            intro b hb
            simpa using List.mem_takeWhile_imp hb
          have hsplit : rest = rest.takeWhile (fun b => decide (key b = key a))
              ++ rest.dropWhile (fun b => decide (key b = key a)) := (List.takeWhile_append_dropWhile).symm
          rw [groups_cons]
          constructor
          · rw [List.map_cons, List.nodup_cons]
            refine ⟨fun hmem => ?_, hnodup⟩
            obtain ⟨b, hb, hk⟩ := (mem_groups_keys key val).mp hmem
            exact hne b hb hk
          · intro g hg
            rcases List.mem_cons.mp hg with rfl | hg
            · show val a :: _ = valuesOf key val (key a) (a :: rest)
              have hcons : valuesOf key val (key a) (a :: rest)
                  = val a :: valuesOf key val (key a) rest := by simp [valuesOf]
              rw [hcons]
              conv_rhs => rw [hsplit, valuesOf_append, valuesOf_eq_map key val htake,
                valuesOf_eq_nil key val hne, List.append_nil]
            · have hk : g.1 ≠ key a := by
                obtain ⟨b, hb, hkb⟩ := (mem_groups_keys key val).mp (List.mem_map_of_mem hg)
                exact hkb ▸ hne b hb
              have hcons : valuesOf key val g.1 (a :: rest) = valuesOf key val g.1 rest := by
                simp [valuesOf, hk.symm]
              rw [hvalues g hg, hcons]
              conv_rhs => rw [hsplit, valuesOf_append,
                valuesOf_eq_nil key val (fun b hb => (htake b hb).trans_ne hk.symm), List.nil_append]

/-- The keys of the groups stand in the order of the list. -/
theorem groups_keys_sublist (l : List α) : ((groups key val l).map Prod.fst).Sublist (l.map key) := by
  induction l with
  | nil => exact List.Sublist.slnil
  | cons a rest ih =>
      rw [groups, List.map_cons]
      cases hg : groups key val rest with
      | nil => exact (List.nil_sublist _).cons_cons _
      | cons g gs =>
          obtain ⟨k, vs⟩ := g
          rw [hg] at ih
          by_cases hk : k = key a
          · simp only [hk, if_true]
            exact (hk ▸ ih).cons _
          · simp only [hk, if_false]
            exact ih.cons_cons _

/-- The members of a list, once each and in increasing order. -/
def sortedSet (l : List κ) : List κ := l.dedup.insertionSort (· ≤ ·)

theorem mem_sortedSet {l : List κ} {k : κ} : k ∈ sortedSet l ↔ k ∈ l := by
  unfold sortedSet
  rw [(List.perm_insertionSort _ _).mem_iff, List.mem_dedup]

/-- There is only one way to write them down. -/
theorem eq_sortedSet {l ks : List κ} (hsorted : ks.Pairwise (· ≤ ·)) (hnodup : ks.Nodup)
    (hmem : ∀ k, k ∈ ks ↔ k ∈ l) : ks = sortedSet l := by
  refine List.Perm.eq_of_pairwise ?_ hsorted (List.pairwise_insertionSort _ _) ?_
  · intro a b _ _ hab hba
    exact le_antisymm hab hba
  · refine List.Perm.trans ?_ (List.perm_insertionSort _ _).symm
    refine (List.perm_ext_iff_of_nodup hnodup (List.nodup_dedup l)).mpr (fun k => ?_)
    rw [hmem, List.mem_dedup]

/-- `sortedSet` does not depend on the order of the list, or on how often a member occurs. -/
theorem sortedSet_congr {l l' : List κ} (hmem : ∀ k, k ∈ l ↔ k ∈ l') : sortedSet l = sortedSet l' := by
  refine eq_sortedSet (List.pairwise_insertionSort _ _) ?_ (fun k => ?_)
  · exact (List.perm_insertionSort _ _).nodup_iff.mpr (List.nodup_dedup l)
  · rw [mem_sortedSet, hmem]

section Compute

variable {γ : Type} {f : κ → List β → γ} (hf : ∀ k {vs vs'}, vs.Perm vs' → f k vs = f k vs')
include hf

/-- What is computed from the groups is computed from the keys, when the order of values does not matter. -/
theorem groups_map {l L : List α} (hsorted : SortedBy key l) (hperm : l.Perm L) :
    (groups key val l).map (fun g => f g.1 g.2)
      = ((groups key val l).map Prod.fst).map (fun k => f k (valuesOf key val k L)) := by
  have hvalues : ∀ g ∈ groups key val l, g.2 = valuesOf key val g.1 l :=
    (groups_sorted (Nat.le_refl _) hsorted).2
  rw [List.map_map]
  refine List.map_congr_left (fun g hg => ?_)
  rw [hvalues g hg]
  exact hf g.1 (valuesOf_perm key val hperm g.1)

omit hf in
theorem groups_keys_perm {l L : List α} (hsorted : SortedBy key l) (hperm : l.Perm L) :
    ((groups key val l).map Prod.fst).Perm (distinctKeys key L) := by
  have hnodup : ((groups key val l).map Prod.fst).Nodup := (groups_sorted (Nat.le_refl _) hsorted).1
  refine (List.perm_ext_iff_of_nodup hnodup (distinctKeys_nodup key L)).mpr (fun k => ?_)
  rw [mem_groups_keys, mem_distinctKeys]
  exact ⟨fun ⟨a, ha, hk⟩ => ⟨a, hperm.subset ha, hk⟩, fun ⟨a, ha, hk⟩ => ⟨a, hperm.symm.subset ha, hk⟩⟩

/-- What is computed from the groups depends on the list as a multiset only. -/
theorem groups_perm {l L : List α} (hsorted : SortedBy key l) (hperm : l.Perm L) :
    ((groups key val l).map (fun g => f g.1 g.2)).Perm
      ((distinctKeys key L).map (fun k => f k (valuesOf key val k L))) := by
  rw [groups_map hf hsorted hperm]
  exact (groups_keys_perm hsorted hperm).map _

/-- Two ways to sort one list give the same result. -/
theorem groups_unique {l l' L : List α} (hsorted : SortedBy key l) (hsorted' : SortedBy key l')
    (hperm : l.Perm L) (hperm' : l'.Perm L) :
    (groups key val l).map (fun g => f g.1 g.2) = (groups key val l').map (fun g => f g.1 g.2) := by
  have hordered : ∀ {l : List α}, SortedBy key l →
      ((groups key val l).map Prod.fst).Pairwise (· ≤ ·) := by
    intro l hl
    exact (List.pairwise_map.mpr hl).sublist (groups_keys_sublist l)
  have hkeys : (groups key val l).map Prod.fst = (groups key val l').map Prod.fst := by
    refine List.Perm.eq_of_pairwise ?_ (hordered hsorted) (hordered hsorted') ?_
    · intro a b _ _ hab hba
      exact le_antisymm hab hba
    · exact (groups_keys_perm hsorted hperm).trans (groups_keys_perm hsorted' hperm').symm
  rw [groups_map hf hsorted hperm, groups_map hf hsorted' hperm', hkeys]

/-- What is computed from the groups, key by key in increasing order. -/
theorem groups_map_sortedSet {l L : List α} (hsorted : SortedBy key l) (hperm : l.Perm L) :
    (groups key val l).map (fun g => f g.1 g.2)
      = (sortedSet (L.map key)).map (fun k => f k (valuesOf key val k L)) := by
  have hkeys : (groups key val l).map Prod.fst = sortedSet (L.map key) := by
    refine eq_sortedSet ?_ (groups_sorted (Nat.le_refl _) hsorted).1 (fun k => ?_)
    · exact (List.pairwise_map.mpr hsorted).sublist (groups_keys_sublist l)
    · rw [(groups_keys_perm hsorted hperm).mem_iff, distinctKeys, List.mem_dedup]
  rw [groups_map hf hsorted hperm, hkeys]

end Compute

end Sorted

section Parts

variable {α κ β : Type} [DecidableEq κ] (key : α → κ) (val : α → β)

/-- The entries of one part, when `part` distributes the keys. -/
def partOf (part : κ → Nat) (r : Nat) (l : List α) : List α := l.filter (fun a => part (key a) = r)

theorem valuesOf_partOf {part : κ → Nat} {r : Nat} {k : κ} (hk : part k = r) (l : List α) :
    valuesOf key val k (partOf key part r l) = valuesOf key val k l := by
  unfold valuesOf partOf
  rw [List.filter_filter]
  congr 1
  refine List.filter_congr (fun a _ => ?_)
  by_cases hak : key a = k
  · simp [hak, hk]
  · simp [hak]

/-- Every key occurs in exactly one part. -/
theorem distinctKeys_perm_parts {part : κ → Nat} {n : Nat} (hpart : ∀ k, part k < n) (l : List α) :
    ((List.range n).flatMap (fun r => distinctKeys key (partOf key part r l))).Perm (distinctKeys key l) := by
  have hmem : ∀ {r k}, k ∈ distinctKeys key (partOf key part r l) → part k = r := by
    intro r k hk
    obtain ⟨a, ha, rfl⟩ := (mem_distinctKeys key).mp hk
    simpa using (List.mem_filter.mp ha).2
  refine (List.perm_ext_iff_of_nodup ?_ (distinctKeys_nodup key l)).mpr (fun k => ?_)
  · rw [List.nodup_flatMap]
    refine ⟨fun r _ => distinctKeys_nodup key _, ?_⟩
    refine List.nodup_range.imp (fun {r r'} hne => ?_)
    intro k hk hk'
    exact hne ((hmem hk).symm.trans (hmem hk'))
  · rw [List.mem_flatMap, mem_distinctKeys]
    constructor
    · rintro ⟨r, _, hk⟩
      obtain ⟨a, ha, hak⟩ := (mem_distinctKeys key).mp hk
      exact ⟨a, (List.mem_filter.mp ha).1, hak⟩
    · rintro ⟨a, ha, rfl⟩
      refine ⟨part (key a), List.mem_range.mpr (hpart _), (mem_distinctKeys key).mpr ⟨a, ?_, rfl⟩⟩
      exact List.mem_filter.mpr ⟨ha, by simp⟩

end Parts

end Lib
end DistributedLabs
