import DistributedLabs.ShardCfg.Config

/-!
# `ShardCfg.Rebalance` — termination, balance, and as few moves as possible

`analyze_spec` says what `analyze` finds when there is a group: a heaviest and a lightest one, whatever the gids
are, so the sentinels it starts from never come out. From it each loop of `Rebalance` has one lemma about one
round: a round of the first loop is a `fill` step and a round of the second one a `move` step of `Lib.Balance`
(`fillShard_ok`, `moveShard_cases`). The rest is what `Lib.Balance` says about such steps.

The second loop has no bound in the source. Each of its rounds makes the sum of the squares of the groups' counts
smaller (`moveShard_imbalance`), so it breaks after fewer than `maxRounds` rounds, from every configuration
(`rebalanceIn_eq`); from then on `Rebalance` is a function. `rebalanced_ok` says what it does to the shards, and
`rebalance_valid` what the outcome is like.
-/

namespace DistributedLabs
namespace ShardCfg

open Lib

/-- The gids of a configuration as a set. -/
def ShardConfig.gids (c : ShardConfig) : Finset Tgid := c.groups.keys.toFinset

theorem mem_gids {c : ShardConfig} {g : Tgid} : g ∈ c.gids ↔ g ∈ c.groups := by
  unfold ShardConfig.gids
  rw [List.mem_toFinset, AList.mem_keys]

theorem mem_sortedGids {c : ShardConfig} {g : Tgid} : g ∈ c.sortedGids ↔ g ∈ c.groups := by
  unfold ShardConfig.sortedGids
  rw [List.mem_insertionSort, AList.mem_keys]

theorem gids_nonempty_iff {c : ShardConfig} : c.gids.Nonempty ↔ ¬ c.groups.keys.length < 1 := by
  unfold ShardConfig.gids
  rw [List.toFinset_nonempty_iff, ← List.length_pos_iff]
  omega

theorem gids_nonempty {c : ShardConfig} : c.gids.Nonempty ↔ c.groups ≠ ∅ := by
  rw [gids_nonempty_iff]
  refine ⟨fun hlen hempty => hlen ?_, fun hne hlen => hne ?_⟩
  · rw [hempty]
    decide
  · have hkeys : c.groups.keys = [] := List.eq_nil_of_length_eq_zero (by omega)
    exact AList.ext (List.map_eq_nil_iff.mp hkeys)

/-! ## What `analyze` finds -/

/-- The gids and counts of a heaviest and of a lightest group among those in the list. -/
structure Analysis.Extremes (counts : Tgid → Nat) (l : List Tgid) (a : Analysis) : Prop where
  mg_mem : a.mg ∈ l
  mn_eq : a.mn = counts a.mg
  most : ∀ g ∈ l, counts g ≤ counts a.mg
  lg_mem : a.lg ∈ l
  ln_eq : a.ln = counts a.lg
  least : ∀ g ∈ l, counts a.lg ≤ counts g

theorem visit_eq (counts : Tgid → Nat) (a : Analysis) (g : Tgid) :
    a.visit counts g = { mg := if a.mn < counts g then g else a.mg
                         mn := if a.mn < counts g then (counts g : Int) else a.mn
                         lg := if (counts g : Int) < a.ln then g else a.lg
                         ln := if (counts g : Int) < a.ln then (counts g : Int) else a.ln } := by
  unfold Analysis.visit
  by_cases hln : (counts g : Int) < a.ln <;> by_cases hmn : a.mn < (counts g : Int) <;> simp [hln, hmn]

/-- The first group replaces both sentinels. -/
theorem visit_first {counts : Tgid → Nat} {g : Tgid} (hsmall : counts g < 257) :
    (Analysis.visit counts { mg := -1, mn := -1, lg := -1, ln := 257 } g).Extremes counts [g] := by
  have hln : (counts g : Int) < 257 := by omega
  have hmn : (-1 : Int) < counts g := by omega
  rw [visit_eq, if_pos hln, if_pos hln, if_pos hmn, if_pos hmn]
  constructor <;> simp

/-- A further group replaces what it exceeds. -/
theorem Analysis.Extremes.visit {counts : Tgid → Nat} {l : List Tgid} {a : Analysis}
    (h : a.Extremes counts l) (g : Tgid) : (a.visit counts g).Extremes counts (l ++ [g]) := by
  obtain ⟨hmg, hmn, hmost, hlg, hln, hleast⟩ := h
  have hsnoc : ∀ {P : Tgid → Prop}, (∀ g' ∈ l, P g') → P g → ∀ g' ∈ l ++ [g], P g' := by
    intro P hold hnew g' hg'
    rcases List.mem_append.mp hg' with hg' | hg'
    · exact hold g' hg'
    · rw [List.mem_singleton.mp hg']
      exact hnew
  rw [visit_eq, hmn, hln]
  simp only [Nat.cast_lt]
  constructor <;> dsimp only
  · split <;> simp [hmg]
  · split <;> rfl
  · split
    · exact hsnoc (fun g' hg' => Nat.le_trans (hmost g' hg') (by omega)) (Nat.le_refl _)
    · exact hsnoc hmost (by omega)
  · split <;> simp [hlg]
  · split <;> rfl
  · split
    · exact hsnoc (fun g' hg' => Nat.le_trans (by omega) (hleast g' hg')) (Nat.le_refl _)
    · exact hsnoc hleast (by omega)

/-- The whole loop over some groups, as long as no count reaches the sentinel. -/
theorem foldl_visit {counts : Tgid → Nat} (hsmall : ∀ g, counts g < 257) {l : List Tgid} (hl : l ≠ []) :
    (l.foldl (Analysis.visit counts) { mg := -1, mn := -1, lg := -1, ln := 257 }).Extremes counts l := by
  induction l using List.reverseRecOn with
  | nil => exact absurd rfl hl
  | append_singleton l g ih =>
      rw [List.foldl_append]
      by_cases hnil : l = []
      · subst hnil
        rw [List.foldl_nil, List.foldl_cons, List.foldl_nil, List.nil_append]
        exact visit_first (hsmall g)
      · exact (ih hnil).visit g

theorem counts_le (c : ShardConfig) (g : Tgid) : c.counts g ≤ NShards := by
  unfold ShardConfig.counts load
  have hle := Finset.card_le_univ (Finset.univ.filter (fun s => c.shards s = g))
  rwa [Fintype.card_fin] at hle

/-- With a group there is a heaviest and a lightest one, and `analyze` finds them. -/
theorem analyze_spec {c : ShardConfig} (h : c.gids.Nonempty) : c.analyze.Extremes c.counts c.sortedGids := by
  refine foldl_visit (fun g => ?_) ?_
  · have := counts_le c g
    unfold NShards at this
    omega
  · obtain ⟨g, hg⟩ := h
    exact List.ne_nil_of_mem (mem_sortedGids.mpr (mem_gids.mp hg))

/-- Without a group the sentinels stay. -/
theorem analyze_of_empty {c : ShardConfig} (h : ¬ c.gids.Nonempty) : c.analyze.mn < c.analyze.ln + 2 := by
  have hnil : c.groups.keys = [] := by
    rw [gids_nonempty_iff, not_not] at h
    exact List.eq_nil_of_length_eq_zero (by omega)
  unfold ShardConfig.analyze ShardConfig.sortedGids
  rw [hnil, List.insertionSort_nil, List.foldl_nil]
  decide

/-! ## The loop that moves shards -/

@[simp] theorem assign_shards (st : Progress) (s : Fin NShards) (g : Tgid) :
    (st.assign s g).cfg.shards = Function.update st.cfg.shards s g := rfl

@[simp] theorem assign_groups (st : Progress) (s : Fin NShards) (g : Tgid) :
    (st.assign s g).cfg.groups = st.cfg.groups := rfl

@[simp] theorem assign_num (st : Progress) (s : Fin NShards) (g : Tgid) :
    (st.assign s g).cfg.num = st.cfg.num := rfl

/-- Where the loop breaks, the groups are balanced. -/
theorem balanced_of_break {st : Progress} (h : st.moveShard = none) : Balanced st.cfg.gids st.cfg.shards := by
  intro g hg g' hg'
  have hne : st.cfg.gids.Nonempty := ⟨g, hg⟩
  have hspec := analyze_spec hne
  have hbreak : st.cfg.analyze.mn < st.cfg.analyze.ln + 2 := by
    by_contra hcont
    unfold Progress.moveShard at h
    rw [if_neg hcont] at h
    split at h <;> cases h
  rw [hspec.mn_eq, hspec.ln_eq] at hbreak
  have hmost := hspec.most g (mem_sortedGids.mpr (mem_gids.mp hg))
  have hleast := hspec.least g' (mem_sortedGids.mpr (mem_gids.mp hg'))
  show st.cfg.counts g ≤ st.cfg.counts g' + 1
  omega

/-- A round moves one shard, from a heaviest group to a lightest one that is lighter by at least two. -/
theorem moveShard_cases {st st' : Progress} (h : st.moveShard = some st') :
    ∃ s lg, st' = st.assign s lg ∧ st.cfg.shards s ∈ st.cfg.gids
      ∧ (∀ g ∈ st.cfg.gids, load st.cfg.shards g ≤ load st.cfg.shards (st.cfg.shards s))
      ∧ lg ∈ st.cfg.gids ∧ (∀ g ∈ st.cfg.gids, load st.cfg.shards lg ≤ load st.cfg.shards g)
      ∧ load st.cfg.shards lg + 2 ≤ load st.cfg.shards (st.cfg.shards s) := by
  have hcont : ¬ st.cfg.analyze.mn < st.cfg.analyze.ln + 2 := by
    intro hbreak
    unfold Progress.moveShard at h
    rw [if_pos hbreak] at h
    cases h
  have hne : st.cfg.gids.Nonempty := by
    by_contra hempty
    exact hcont (analyze_of_empty hempty)
  have hspec := analyze_spec hne
  have hgap : st.cfg.counts st.cfg.analyze.lg + 2 ≤ st.cfg.counts st.cfg.analyze.mg := by
    rw [hspec.mn_eq, hspec.ln_eq] at hcont
    omega
  -- the heaviest group is not empty, so there is a shard to move
  obtain ⟨s₀, hs₀⟩ : ∃ s, st.cfg.shards s = st.cfg.analyze.mg := by
    have hpos : 0 < load st.cfg.shards st.cfg.analyze.mg := Nat.lt_of_lt_of_le (by omega) hgap
    obtain ⟨s, hs⟩ := Finset.card_pos.mp (show 0 < (Finset.univ.filter _).card from hpos)
    exact ⟨s, (Finset.mem_filter.mp hs).2⟩
  unfold Progress.moveShard at h
  rw [if_neg hcont] at h
  cases hfind : (List.finRange NShards).find? (fun s => st.cfg.shards s = st.cfg.analyze.mg) with
  | none =>
      have := List.find?_eq_none.mp hfind s₀ (List.mem_finRange s₀)
      exact absurd (decide_eq_true hs₀) this
  | some s =>
      have hs : st.cfg.shards s = st.cfg.analyze.mg := by simpa using List.find?_some hfind
      rw [hfind] at h
      have hmem : ∀ {g}, g ∈ st.cfg.gids → g ∈ st.cfg.sortedGids :=
        fun hg => mem_sortedGids.mpr (mem_gids.mp hg)
      refine ⟨s, st.cfg.analyze.lg, (Option.some.inj h).symm, ?_, ?_, ?_, ?_, ?_⟩
      · rw [hs]
        exact mem_gids.mpr (mem_sortedGids.mp hspec.mg_mem)
      · rw [hs]
        exact fun g hg => hspec.most g (hmem hg)
      · exact mem_gids.mpr (mem_sortedGids.mp hspec.lg_mem)
      · exact fun g hg => hspec.least g (hmem hg)
      · rw [hs]
        exact hgap

/-- Every round makes the sum of the squares smaller. -/
theorem moveShard_imbalance {st st' : Progress} (h : st.moveShard = some st') :
    imbalance st'.cfg.gids st'.cfg.shards < imbalance st.cfg.gids st.cfg.shards := by
  obtain ⟨s, lg, rfl, hs, _, hlg, _, hgap⟩ := moveShard_cases h
  exact imbalance_move hs hlg hgap

theorem imbalance_lt_maxRounds (st : Progress) : imbalance st.cfg.gids st.cfg.shards < maxRounds := by
  have hle := imbalance_le st.cfg.gids st.cfg.shards
  rw [Fintype.card_fin] at hle
  exact Nat.lt_succ_of_le hle

/-! ## What both loops keep -/

/-- A configuration in the middle of `Rebalance`, seen from the one it started from: only shards have been
    reassigned, thriftily, each at most once and never back. -/
structure ProgressOk (c : ShardConfig) (st : Progress) : Prop where
  num : st.cfg.num = c.num
  groups : st.cfg.groups = c.groups
  thrifty : Thrifty c.gids c.shards st.cfg.shards
  once : st.assigned.Nodup
  moved : ∀ s, s ∈ st.assigned ↔ st.cfg.shards s ≠ c.shards s

theorem progressOk_start (c : ShardConfig) : ProgressOk c ⟨c, []⟩ :=
  ⟨rfl, rfl, Thrifty.refl _ _, List.nodup_nil, fun s => by simp⟩

section Keep

variable {c : ShardConfig} {st st' : Progress} {s : Fin NShards} {g : Tgid}

theorem ProgressOk.gids_eq (h : ProgressOk c st) : st.cfg.gids = c.gids := by
  unfold ShardConfig.gids
  rw [h.groups]

/-- A shard that is where it was goes to another group. -/
theorem ProgressOk.assign (h : ProgressOk c st) (hs : st.cfg.shards s = c.shards s) (hg : g ≠ c.shards s)
    (hthrifty : Thrifty c.gids c.shards (Function.update st.cfg.shards s g)) :
    ProgressOk c (st.assign s g) := by
  have hnot : s ∉ st.assigned := fun hmem => (h.moved s).mp hmem hs
  refine ⟨h.num, h.groups, hthrifty, ?_, fun s' => ?_⟩
  · refine List.Nodup.append h.once (List.nodup_singleton s) ?_
    intro s' hold hnew
    rw [List.mem_singleton.mp hnew] at hold
    exact hnot hold
  · show s' ∈ st.assigned ++ [s] ↔ Function.update st.cfg.shards s g s' ≠ c.shards s'
    rw [List.mem_append, List.mem_singleton, h.moved s']
    by_cases hss : s' = s
    · subst hss
      simpa using hg
    · simp [hss]

/-- A round of the second loop. -/
theorem ProgressOk.moveShard (h : ProgressOk c st) (hvalid : ∀ s, st.cfg.shards s ∈ c.gids)
    (hround : st.moveShard = some st') : ProgressOk c st' ∧ ∀ s, st'.cfg.shards s ∈ c.gids := by
  obtain ⟨s, lg, rfl, hs, hmost, hlg, hleast, hgap⟩ := moveShard_cases hround
  rw [h.gids_eq] at hs hmost hlg hleast
  obtain ⟨hback, _⟩ := h.thrifty.source hs hlg hgap
  have hne : lg ≠ c.shards s := by
    rw [hback]
    intro heq
    rw [heq] at hgap
    omega
  refine ⟨h.assign hback.symm hne (h.thrifty.move hs hmost hlg hleast hgap), ?_⟩
  exact (Function.forall_update_iff st.cfg.shards (fun _ g => g ∈ c.gids)).mpr ⟨hlg, fun s' _ => hvalid s'⟩

/-- The first loop after the shards `done`: no group has lost a shard, the shards `done` are in groups, and
    the others are where they were. -/
structure FillOk (c : ShardConfig) (done : List (Fin NShards)) (st : Progress) : Prop extends ProgressOk c st where
  noneLost : ∀ g ∈ c.gids, load c.shards g ≤ load st.cfg.shards g
  filled : ∀ s ∈ done, st.cfg.shards s ∈ c.gids
  untouched : ∀ s ∉ done, st.cfg.shards s = c.shards s

/-- A round of the first loop. -/
theorem fillShard_ok {done : List (Fin NShards)} (hne : c.gids.Nonempty) (h : FillOk c done st)
    (hs : s ∉ done) : FillOk c (done ++ [s]) (st.fillShard c.shards s) := by
  have hback := h.untouched s hs
  have hgids := h.gids_eq
  unfold Progress.fillShard
  -- a shard whose group is there stays; any other goes to a lightest group
  by_cases hin : c.shards s ∈ st.cfg.groups
  · rw [if_pos hin]
    refine { h with filled := fun s' hs' => ?_, untouched := fun s' hs' => ?_ }
    · rcases List.mem_append.mp hs' with hold | hnew
      · exact h.filled s' hold
      · rw [List.mem_singleton.mp hnew, hback]
        rw [h.groups] at hin
        exact mem_gids.mpr hin
    · exact h.untouched s' (fun hold => hs' (List.mem_append_left _ hold))
  · rw [if_neg hin]
    have hout : c.shards s ∉ c.gids := by
      rw [h.groups] at hin
      exact fun hmem => hin (mem_gids.mp hmem)
    have hspec := analyze_spec (c := st.cfg) (by rwa [hgids])
    have hl : st.cfg.least ∈ c.gids := by
      rw [← hgids]
      exact mem_gids.mpr (mem_sortedGids.mp hspec.lg_mem)
    have hleast : ∀ g ∈ c.gids, load st.cfg.shards st.cfg.least ≤ load st.cfg.shards g := by
      intro g hg
      rw [← hgids] at hg
      exact hspec.least g (mem_sortedGids.mpr (mem_gids.mp hg))
    obtain ⟨hthrifty, hnone⟩ := h.thrifty.fill h.noneLost hback hout hl hleast
    have hother : st.cfg.least ≠ c.shards s := fun heq => hout (heq ▸ hl)
    refine { h.toProgressOk.assign hback hother hthrifty with noneLost := hnone, filled := ?_, untouched := ?_ }
    · intro s' hs'
      rw [assign_shards]
      by_cases hss : s' = s
      · rw [hss, Function.update_self]
        exact hl
      · rw [Function.update_of_ne hss]
        rcases List.mem_append.mp hs' with hold | hnew
        · exact h.filled s' hold
        · exact absurd (List.mem_singleton.mp hnew) hss
    · intro s' hs'
      rw [List.mem_append, List.mem_singleton, not_or] at hs'
      rw [assign_shards, Function.update_of_ne hs'.2]
      exact h.untouched s' hs'.1

/-- The first loop. -/
theorem foldl_fillShard_ok (hne : c.gids.Nonempty) {l : List (Fin NShards)} (hl : l.Nodup) :
    FillOk c l (l.foldl (Progress.fillShard c.shards) ⟨c, []⟩) := by
  induction l using List.reverseRecOn with
  | nil =>
      exact { progressOk_start c with
        noneLost := fun _ _ => Nat.le_refl _
        filled := fun s hs => by cases hs
        untouched := fun _ _ => rfl }
  | append_singleton l s ih =>
      obtain ⟨hnodup, _, hdisj⟩ := List.nodup_append.mp hl
      rw [List.foldl_append]
      exact fillShard_ok hne (ih hnodup) (fun hmem => hdisj s hmem s (List.mem_singleton_self s) rfl)

end Keep

/-! ## Rebalance as a whole -/

section Whole

variable {c : ShardConfig}

/-- A configuration without groups. -/
theorem foldl_unassign (c : ShardConfig) (l : List (Fin NShards)) :
    ∃ st : Progress, l.foldl (fun st s => st.assign s 0) ⟨c, []⟩ = st
      ∧ st.cfg.num = c.num ∧ st.cfg.groups = c.groups ∧ ∀ s ∈ l, st.cfg.shards s = 0 := by
  induction l using List.reverseRecOn with
  | nil => exact ⟨⟨c, []⟩, rfl, rfl, rfl, fun s hs => by cases hs⟩
  | append_singleton l s ih =>
      obtain ⟨st, hst, hnum, hgroups, hzero⟩ := ih
      refine ⟨st.assign s 0, ?_, hnum, hgroups, fun s' hs' => ?_⟩
      · rw [List.foldl_append, hst, List.foldl_cons, List.foldl_nil]
      rw [assign_shards]
      by_cases hss : s' = s
      · rw [hss, Function.update_self]
      · rw [Function.update_of_ne hss]
        exact hzero s' ((List.mem_append.mp hs').resolve_right (fun h => hss (List.mem_singleton.mp h)))

theorem rebalanceIn_of_empty (h : ¬ c.gids.Nonempty) (rounds : Nat) :
    c.rebalanceIn rounds = some c.unassignAll := by
  rw [gids_nonempty_iff, not_not] at h
  exact if_pos h

theorem rebalanceIn_of_nonempty (h : c.gids.Nonempty) (rounds : Nat) :
    c.rebalanceIn rounds = loopIn Progress.moveShard rounds c.assignUnassigned :=
  if_neg (gids_nonempty_iff.mp h)

/-- The rounds always suffice, and more of them make no difference. -/
theorem rebalanceIn_eq (c : ShardConfig) {rounds : Nat} (hrounds : maxRounds ≤ rounds) :
    c.rebalanceIn rounds = some c.rebalanced := by
  unfold ShardConfig.rebalanced
  by_cases hne : c.gids.Nonempty
  · rw [rebalanceIn_of_nonempty hne, rebalanceIn_of_nonempty hne]
    obtain ⟨st, hst⟩ := loopIn_terminates (fun _ _ => moveShard_imbalance)
      (imbalance_lt_maxRounds c.assignUnassigned)
    rw [hst, loopIn_mono hrounds hst]
    rfl
  · rw [rebalanceIn_of_empty hne, rebalanceIn_of_empty hne]
    rfl

/-- With groups, `Rebalance` reassigns shards thriftily, to groups only, until the groups are balanced. -/
theorem rebalanced_ok (hne : c.gids.Nonempty) :
    ProgressOk c c.rebalanced ∧ (∀ s, c.rebalance.shards s ∈ c.gids) ∧ Balanced c.gids c.rebalance.shards := by
  have hloop := rebalanceIn_eq c (Nat.le_refl maxRounds)
  rw [rebalanceIn_of_nonempty hne] at hloop
  have hfill : FillOk c (List.finRange NShards) c.assignUnassigned :=
    foldl_fillShard_ok hne (List.nodup_finRange NShards)
  have hstart : ProgressOk c c.assignUnassigned ∧ ∀ s, c.assignUnassigned.cfg.shards s ∈ c.gids :=
    ⟨hfill.toProgressOk, fun s => hfill.filled s (List.mem_finRange s)⟩
  obtain ⟨⟨hok, hvalid⟩, hbreak⟩ := loopIn_invariant
    (P := fun st => ProgressOk c st ∧ ∀ s, st.cfg.shards s ∈ c.gids)
    (fun _ _ h hround => h.1.moveShard h.2 hround) hstart hloop
  refine ⟨hok, hvalid, ?_⟩
  have hbalanced := balanced_of_break hbreak
  rwa [hok.gids_eq] at hbalanced

theorem rebalanced_of_empty (h : ¬ c.gids.Nonempty) :
    c.rebalance.num = c.num ∧ c.rebalance.groups = c.groups ∧ ∀ s, c.rebalance.shards s = 0 := by
  have heq : c.rebalance = c.unassignAll.cfg := by
    have hrounds := rebalanceIn_eq c (Nat.le_refl maxRounds)
    rw [rebalanceIn_of_empty h] at hrounds
    exact congrArg Progress.cfg (Option.some.inj hrounds).symm
  obtain ⟨st, hst, hnum, hgroups, hzero⟩ := foldl_unassign c (List.finRange NShards)
  rw [heq, ShardConfig.unassignAll, hst]
  exact ⟨hnum, hgroups, fun s => hzero s (List.mem_finRange s)⟩

theorem rebalance_num (c : ShardConfig) : c.rebalance.num = c.num := by
  by_cases hne : c.gids.Nonempty
  · exact (rebalanced_ok hne).1.num
  · exact (rebalanced_of_empty hne).1

theorem rebalance_groups (c : ShardConfig) : c.rebalance.groups = c.groups := by
  by_cases hne : c.gids.Nonempty
  · exact (rebalanced_ok hne).1.groups
  · exact (rebalanced_of_empty hne).2.1

/-- **Rebalance terminates with a valid balanced assignment**, from every configuration: it is done after at most
    `maxRounds` rounds of its last loop; without groups every shard becomes 0; with groups every shard is in a
    group and the counts of any two groups differ by at most one; the number and the groups stay. -/
theorem rebalance_valid (c : ShardConfig) :
    (∀ rounds ≥ maxRounds, (c.rebalanceIn rounds).map Progress.cfg = some c.rebalance)
    ∧ (c.groups = ∅ → ∀ s, c.rebalance.shards s = 0)
    ∧ (c.groups ≠ ∅ → (∀ s, c.rebalance.shards s ∈ c.groups)
        ∧ ∀ g ∈ c.groups, ∀ h ∈ c.groups, c.rebalance.counts g ≤ c.rebalance.counts h + 1)
    ∧ c.rebalance.num = c.num ∧ c.rebalance.groups = c.groups := by
  refine ⟨fun rounds hrounds => by rw [rebalanceIn_eq c hrounds]; rfl, ?_, ?_, rebalance_num c,
    rebalance_groups c⟩
  · intro h
    exact (rebalanced_of_empty (fun hne => gids_nonempty.mp hne h)).2.2
  · intro h
    obtain ⟨_, hvalid, hbalanced⟩ := rebalanced_ok (gids_nonempty.mpr h)
    exact ⟨fun s => mem_gids.mp (hvalid s),
      fun g hg g' hg' => hbalanced g (mem_gids.mpr hg) g' (mem_gids.mpr hg')⟩

example :
    (List.finRange NShards).map (ShardConfig.rebalance { groups := AList.insert 2 [] (AList.insert 1 [] ∅) }).shards
      = [1, 2, 1, 2, 1, 2, 1, 2, 1, 2, 1, 2] := by decide +kernel

end Whole

end ShardCfg
end DistributedLabs
