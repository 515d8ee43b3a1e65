import DistributedLabs.Tester.Connectivity
import Mathlib.Data.Set.List

/-!
# `Tester.MakePartition` — two lists of servers, the leader in the shorter one

`MakePartition` of `tester1/group.go` allocates two slices, of lengths `n/2+1` and `n/2`, and fills them in one loop
over the servers, leaving out the leader; the leader then goes into the last slot. The two slices are one row of
slots (`Placed`), with one more slot than there are servers if `n` is even. That slot keeps its 0, so that server 0
is there twice (`makePartition_spec`).

`Splits` is what a test wants of the two lists: every server in exactly one of them, and the leader in the smaller.
With an odd number of servers the lists are that, and `Partition` with them cuts the leader off with a minority
(`partition_leader_minority`). With an even number they are not (`makePartition_splits_iff`).
-/

namespace DistributedLabs
namespace Tester

/-! ## The code -/

/-- `p[i] = x`; outside the slice it panics. -/
def assign (p : List Int) (i : Nat) (x : Int) : Option (List Int) :=
  if i < p.length then some (p.set i x) else none

/-- The variables of the loop. -/
structure Parts where
  p1 : List Int
  p2 : List Int
  j : Nat
deriving DecidableEq, Repr

/-- One round of the loop. -/
def Parts.place (l : Int) (st : Parts) (i : Int) : Option Parts :=
  if i ≠ l then
    if st.j < st.p1.length then
      (assign st.p1 st.j i).map (fun p1 => { st with p1 := p1, j := st.j + 1 })
    else
      (assign st.p2 (st.j - st.p1.length) i).map (fun p2 => { st with p2 := p2, j := st.j + 1 })
  else some st

/-- The numbers of the servers, as the loop goes through them. -/
def indices (n : Nat) : List Int := (List.range n).map Int.ofNat

/-- `MakePartition` in a group of `n` servers. -/
def makePartition (n : Nat) (l : Int) : Option (List Int × List Int) :=
  let st : Parts := { p1 := List.replicate (n / 2 + 1) 0, p2 := List.replicate (n / 2) 0, j := 0 }
  ((indices n).foldlM (Parts.place l) st).bind (fun st =>
    (assign st.p2 (st.p2.length - 1) l).map (fun p2 => (st.p1, p2)))

def ServerGrp.makePartition {n : Nat} (_ : ServerGrp n) (l : Int) : Option (List Int × List Int) :=
  Tester.makePartition n l

/-! ## The slots -/

/-- The servers in `done` have been placed. The two slices, of lengths `a` and `b`, are one row of slots. -/
structure Placed (a b : Nat) (done : List Int) (st : Parts) : Prop where
  len1 : st.p1.length = a
  len2 : st.p2.length = b
  slots : st.p1 ++ st.p2 = done ++ List.replicate (a + b - done.length) 0
  next : st.j = done.length

section Slots

variable {a b n : Nat} {l : Int} {done : List Int} {st : Parts}

theorem assign_of_lt {p : List Int} {i : Nat} (h : i < p.length) (x : Int) : assign p i x = some (p.set i x) :=
  if_pos h

/-- The first slot that is free. -/
theorem set_free (done : List Int) (k : Nat) (x : Int) :
    (done ++ List.replicate (k + 1) 0).set done.length x = done ++ [x] ++ List.replicate k 0 := by
  rw [List.set_append_right _ _ (Nat.le_refl _), Nat.sub_self, List.replicate_succ, List.set_cons_zero,
    List.append_assoc, List.singleton_append]

/-- A round that comes to another server than the leader, with a slot left for it. -/
theorem Placed.place (h : Placed a b done st) (hfree : done.length < a + b) {i : Int} (hi : i ≠ l) :
    ∃ st', st.place l i = some st' ∧ Placed a b (done ++ [i]) st' := by
  obtain ⟨k, hk⟩ : ∃ k, a + b - done.length = k + 1 := ⟨a + b - done.length - 1, by omega⟩
  have hrest : a + b - (done ++ [i]).length = k := by
    rw [List.length_append, List.length_singleton]
    omega
  -- in the row of slots it is the first free one, whichever slice that is in
  have hfill : (st.p1 ++ st.p2).set st.j i = done ++ [i] ++ List.replicate k 0 := by
    rw [h.slots, hk, h.next]
    exact set_free done k i
  have hj : st.j + 1 = (done ++ [i]).length := by
    rw [List.length_append, List.length_singleton, h.next]
  unfold Parts.place
  rw [if_pos hi]
  by_cases hfirst : st.j < st.p1.length
  · rw [if_pos hfirst, assign_of_lt hfirst, Option.map_some]
    refine ⟨_, rfl, ?_, h.len2, ?_, hj⟩
    · rw [List.length_set]
      exact h.len1
    · rw [hrest, ← hfill, List.set_append_left _ _ hfirst]
  · have hsecond : st.j - st.p1.length < st.p2.length := by
      have hlen1 := h.len1
      have hlen2 := h.len2
      have hnext := h.next
      omega
    rw [if_neg hfirst, assign_of_lt hsecond, Option.map_some]
    refine ⟨_, rfl, h.len1, ?_, ?_, hj⟩
    · rw [List.length_set]
      exact h.len2
    · rw [hrest, ← hfill, List.set_append_right _ _ (Nat.not_lt.mp hfirst)]

/-- The whole loop: the servers but the leader, in their order. -/
theorem Placed.loop (is : List Int) (h : Placed a b done st)
    (hfree : done.length + (is.filter (· ≠ l)).length ≤ a + b) :
    ∃ st', is.foldlM (Parts.place l) st = some st' ∧ Placed a b (done ++ is.filter (· ≠ l)) st' := by
  induction is generalizing done st with
  | nil => exact ⟨st, rfl, by rw [List.filter_nil, List.append_nil]; exact h⟩
  | cons i is ih =>
      rw [List.foldlM_cons]
      by_cases hi : i = l
      · have hskip : st.place l i = some st := if_neg (not_not_intro hi)
        have hout : (i :: is).filter (· ≠ l) = is.filter (· ≠ l) := List.filter_cons_of_neg (by simp [hi])
        rw [hskip, hout]
        rw [hout] at hfree
        exact ih h hfree
      · have hin : (i :: is).filter (· ≠ l) = i :: is.filter (· ≠ l) := List.filter_cons_of_pos (by simp [hi])
        rw [hin, List.length_cons] at hfree
        obtain ⟨st', hplace, hst'⟩ := h.place (by omega) hi
        have hfree' : (done ++ [i]).length + (is.filter (· ≠ l)).length ≤ a + b := by
          rw [List.length_append, List.length_singleton]
          omega
        obtain ⟨st'', hloop, hst''⟩ := ih hst' hfree'
        rw [hplace, hin, List.append_cons]
        exact ⟨st'', hloop, hst''⟩

end Slots

/-! ## What it returns -/

/-- The servers but the leader. -/
def others (n : Nat) (l : Int) : List Int := (indices n).filter (· ≠ l)

section Returned

variable {n : Nat} {l i : Int}

theorem mem_indices : i ∈ indices n ↔ 0 ≤ i ∧ i < n := by
  unfold indices
  rw [List.mem_map]
  constructor
  · rintro ⟨k, hk, rfl⟩
    have hlt := List.mem_range.mp hk
    exact ⟨Int.natCast_nonneg k, Int.ofNat_lt.mpr hlt⟩
  · rintro ⟨hpos, hlt⟩
    exact ⟨i.toNat, List.mem_range.mpr (by omega), Int.toNat_of_nonneg hpos⟩

theorem indices_nodup (n : Nat) : (indices n).Nodup :=
  List.nodup_range.map (fun _ _ => Int.ofNat.inj)

theorem mem_others : i ∈ others n l ↔ (0 ≤ i ∧ i < n) ∧ i ≠ l := by
  unfold others
  rw [List.mem_filter, mem_indices, decide_eq_true_eq]

theorem others_nodup (n : Nat) (l : Int) : (others n l).Nodup := (indices_nodup n).filter _

theorem indices_length (n : Nat) : (indices n).length = n := by
  unfold indices
  rw [List.length_map, List.length_range]

/-- The leader and the others are the servers. -/
theorem others_length (hpos : 0 ≤ l) (hlt : l < n) : (others n l).length + 1 = n := by
  have hmem : l ∈ indices n := mem_indices.mpr ⟨hpos, hlt⟩
  have herase : others n l = (indices n).erase l := by
    unfold others
    rw [(indices_nodup n).erase_eq_filter]
    exact List.filter_congr (fun i _ => by rw [bne, decide_not, beq_eq_decide])
  rw [herase, List.length_erase_of_mem hmem, indices_length]
  omega

/-- The others, then the leader; in between, if `n` is even, a slot that was left over. -/
theorem makePartition_spec (hn : 2 ≤ n) (hpos : 0 ≤ l) (hlt : l < n) :
    ∃ p1 p2, makePartition n l = some (p1, p2) ∧ p1.length = n / 2 + 1 ∧ p2.length = n / 2 ∧ l ∈ p2 ∧
      p1 ++ p2 = others n l ++ List.replicate ((n + 1) % 2) 0 ++ [l] := by
  have hothers := others_length hpos hlt
  have hstart : Placed (n / 2 + 1) (n / 2) []
      { p1 := List.replicate (n / 2 + 1) 0, p2 := List.replicate (n / 2) 0, j := 0 } := by
    refine ⟨List.length_replicate, List.length_replicate, ?_, rfl⟩
    rw [List.nil_append, List.length_nil, Nat.sub_zero, List.replicate_append_replicate]
  obtain ⟨st, hloop, hst⟩ := hstart.loop (l := l) (indices n) (by
    show 0 + (others n l).length ≤ _
    omega)
  change Placed _ _ (others n l) st at hst
  have hlast : st.p2.length - 1 < st.p2.length := by
    have hlen2 := hst.len2
    omega
  refine ⟨st.p1, st.p2.set (st.p2.length - 1) l, ?_, hst.len1, ?_, List.mem_set hlast l, ?_⟩
  · unfold makePartition
    dsimp only
    rw [hloop, Option.bind_some, assign_of_lt hlast, Option.map_some]
  · rw [List.length_set]
    exact hst.len2
  · -- the leader's slot is the last of the row
    have hrow : n / 2 + 1 + n / 2 - (others n l).length = (n + 1) % 2 + 1 := by omega
    have hat : st.p1.length + (st.p2.length - 1) = (others n l ++ List.replicate ((n + 1) % 2) 0).length := by
      rw [List.length_append, List.length_replicate, hst.len1, hst.len2]
      omega
    have hmove : st.p1 ++ st.p2.set (st.p2.length - 1) l =
        (st.p1 ++ st.p2).set (st.p1.length + (st.p2.length - 1)) l := by
      rw [List.set_append_right _ _ (Nat.le_add_right ..), Nat.add_sub_cancel_left]
    rw [hmove, hst.slots, hrow, hat, List.replicate_succ', ← List.append_assoc]
    rw [List.set_append_right _ _ (Nat.le_refl _), Nat.sub_self, List.set_cons_zero]

/-! ## A split with the leader in the minority -/

/-- What `MakePartition` is to return. -/
structure Splits (n : Nat) (l : Int) (p1 p2 : List Int) : Prop where
  disjoint : p1.Disjoint p2
  nodup1 : p1.Nodup
  nodup2 : p2.Nodup
  servers : ∀ i : Int, i ∈ p1 ∨ i ∈ p2 ↔ 0 ≤ i ∧ i < n
  leader : l ∈ p2
  majority : n < 2 * p1.length

theorem Splits.nodup {p1 p2 : List Int} (h : Splits n l p1 p2) : (p1 ++ p2).Nodup :=
  h.nodup1.append h.nodup2 h.disjoint

/-- Lists that have no server twice have no more slots than there are servers. -/
theorem Splits.length_le {p1 p2 : List Int} (h : Splits n l p1 p2) : p1.length + p2.length ≤ n := by
  have hsub : p1 ++ p2 ⊆ indices n :=
    fun i hi => mem_indices.mpr ((h.servers i).mp (List.mem_append.mp hi))
  have hle := (List.subperm_of_subset h.nodup hsub).length_le
  rw [List.length_append, indices_length] at hle
  exact hle

/-- A slot that is left over holds a server as well: all are there, and no other number. -/
theorem mem_makePartition (hpos : 0 ≤ l) (hlt : l < n) {p1 p2 : List Int}
    (hrow : p1 ++ p2 = others n l ++ List.replicate ((n + 1) % 2) 0 ++ [l]) (i : Int) :
    i ∈ p1 ∨ i ∈ p2 ↔ 0 ≤ i ∧ i < n := by
  rw [← List.mem_append, hrow, List.mem_append, List.mem_append, mem_others, List.mem_replicate, List.mem_singleton]
  omega

/-- With an odd number of servers no slot is left over. -/
theorem makePartition_splits (hn : 2 ≤ n) (hodd : n % 2 = 1) (hpos : 0 ≤ l) (hlt : l < n) :
    ∃ p1 p2, makePartition n l = some (p1, p2) ∧ Splits n l p1 p2 := by
  obtain ⟨p1, p2, hmake, hlen1, _, hleader, hrow⟩ := makePartition_spec hn hpos hlt
  have hservers := mem_makePartition hpos hlt hrow
  have hnone : (n + 1) % 2 = 0 := by omega
  rw [hnone, List.replicate_zero, List.append_nil] at hrow
  have hnodup : (p1 ++ p2).Nodup := by
    rw [hrow]
    apply (others_nodup n l).append (List.nodup_singleton l)
    intro i hi hl
    exact (mem_others.mp hi).2 (List.mem_singleton.mp hl)
  obtain ⟨hnodup1, hnodup2, hdisj⟩ := List.nodup_append'.mp hnodup
  exact ⟨p1, p2, hmake, hdisj, hnodup1, hnodup2, hservers, hleader, by omega⟩

/-- **MakePartition splits the group if the number of its servers is odd**, and only then. -/
theorem makePartition_splits_iff (hn : 3 ≤ n) (hpos : 0 ≤ l) (hlt : l < n) :
    ∃ p1 p2, makePartition n l = some (p1, p2) ∧ (Splits n l p1 p2 ↔ n % 2 = 1) := by
  rcases Nat.mod_two_eq_zero_or_one n with heven | hodd
  · -- there is one slot more than there are servers
    obtain ⟨p1, p2, hmake, hlen1, hlen2, _, _⟩ := makePartition_spec (by omega) hpos hlt
    refine ⟨p1, p2, hmake, fun hsplits => ?_, fun hodd => by omega⟩
    have hle := hsplits.length_le
    omega
  · obtain ⟨p1, p2, hmake, hsplits⟩ := makePartition_splits (by omega) hodd hpos hlt
    exact ⟨p1, p2, hmake, fun _ => hodd, fun _ => hsplits⟩

/-- Five servers, the first of them the leader. -/
theorem makePartition_splits_five : ∃ p1 p2, makePartition 5 0 = some (p1, p2) ∧ Splits 5 0 p1 p2 := by
  obtain ⟨p1, p2, hmake, hsplits⟩ := makePartition_splits_iff (n := 5) (l := 0) (by decide) (by decide) (by decide)
  exact ⟨p1, p2, hmake, hsplits.mpr rfl⟩

/-- Four servers, the last of them the leader: server 0 is in both lists. -/
theorem makePartition_four_overlap :
    makePartition 4 3 = some ([0, 1, 2], [0, 3]) ∧ ¬ Splits 4 3 [0, 1, 2] [0, 3] := by
  refine ⟨by decide, fun hsplits => ?_⟩
  have hle := hsplits.length_le
  contradiction

end Returned

/-! ## The leader cut off -/

section CutOff

variable {n : Nat}

/-- Servers by their numbers. -/
def numbers (p : List (Fin n)) : List Int := p.map (fun i => (i.val : Int))

theorem mem_numbers {p : List (Fin n)} {i : Fin n} : (i.val : Int) ∈ numbers p ↔ i ∈ p := by
  apply List.mem_map_of_injective
  intro a b hab
  exact Fin.ext (Int.ofNat.inj hab)

theorem numbers_length (p : List (Fin n)) : (numbers p).length = p.length := List.length_map _

theorem exists_numbers {p : List Int} (h : ∀ i ∈ p, 0 ≤ i ∧ i < n) : ∃ q : List (Fin n), numbers q = p := by
  have hrange : p ∈ Set.range (List.map (fun i : Fin n => (i.val : Int))) := by
    rw [Set.range_list_map]
    intro i hi
    obtain ⟨hpos, hlt⟩ := h i hi
    exact ⟨⟨i.toNat, by omega⟩, Int.toNat_of_nonneg hpos⟩
  exact hrange

/-- **The leader is cut off with a minority.** After `Partition` with the lists of `MakePartition` the leader reaches
a minority, and the servers out of its reach are all connected with each other. -/
theorem partition_leader_minority (sg : ServerGrp n) (hn : 2 ≤ n) (hodd : n % 2 = 1) (leader : Fin n) :
    ∃ p1 p2, sg.makePartition leader.val = some (numbers p1, numbers p2) ∧
      (∀ j, (sg.partition p1 p2).link leader j = true ↔ j ∈ p2) ∧ 2 * p2.length < n ∧
      ∀ i j, i ∉ p2 → j ∉ p2 → (sg.partition p1 p2).link i j = true := by
  have hlt : (leader.val : Int) < n := Int.ofNat_lt.mpr leader.isLt
  obtain ⟨q1, q2, hmake, hsplits⟩ := makePartition_splits hn hodd (Int.natCast_nonneg leader.val) hlt
  obtain ⟨p1, rfl⟩ := exists_numbers (fun i hi => (hsplits.servers i).mp (Or.inl hi))
  obtain ⟨p2, rfl⟩ := exists_numbers (fun i hi => (hsplits.servers i).mp (Or.inr hi))
  have hdisj : p1.Disjoint p2 :=
    fun i h1 h2 => hsplits.disjoint (mem_numbers.mpr h1) (mem_numbers.mpr h2)
  have hall : ∀ i, i ∈ p1 ∨ i ∈ p2 := by
    intro i
    rw [← mem_numbers, ← mem_numbers]
    exact (hsplits.servers _).mpr ⟨Int.natCast_nonneg i.val, Int.ofNat_lt.mpr i.isLt⟩
  have hleader : leader ∈ p2 := mem_numbers.mp hsplits.leader
  refine ⟨p1, p2, hmake, fun j => ⟨fun hlink => ?_, fun hj => ?_⟩, ?_, fun i j hi hj => ?_⟩
  · by_contra hj
    exact (partition_apart hdisj ((hall j).resolve_right hj) hleader).2 hlink
  · exact partition_linked hdisj (Or.inr ⟨hleader, hj⟩)
  · have hle := hsplits.length_le
    have hmajority := hsplits.majority
    rw [numbers_length] at hle hmajority
    rw [numbers_length] at hle
    omega
  · exact partition_linked hdisj (Or.inl ⟨(hall i).resolve_right hi, (hall j).resolve_right hj⟩)

end CutOff

end Tester
end DistributedLabs
