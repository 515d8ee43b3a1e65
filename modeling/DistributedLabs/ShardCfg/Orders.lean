import DistributedLabs.ShardCfg.Membership

/-!
# `ShardCfg.Orders` — what the order of a map makes a difference to

A range over a Go map goes through it in an order that is chosen anew each time. The configuration that a call
leaves behind when it returns true does not depend on these choices: `analyze` sorts what it has collected, and
`Join` treats its groups alike. When a call returns false it may: the loops of `Join` and `Leave` change the
groups as they go and are not undone, so what has been changed by then is what came before the offending gid.

In `ShardCfg.Config` the order is that of the association list. Here every range has an order of its own
(`RebalancesTo`), and `rebalancesTo_iff` says that it comes to the same. So `orders_agree` can be proved about two
controllers that range in orders of their own, and the other modules need not mention an order at all.
-/

namespace DistributedLabs
namespace ShardCfg

open Lib

/-! ## Calls that return false -/

/-- `Join` or `Leave`, without the rebalancing. -/
def ShardConfig.regroup (c : ShardConfig) : Call → Option (ShardConfig × Bool)
  | .join servers => c.join servers
  | .leave gids => c.leave gids

/-- The same number, shards and groups; the groups as a map. -/
structure ShardConfig.Same (c d : ShardConfig) : Prop where
  num : c.num = d.num
  shards : c.shards = d.shards
  lookup : ∀ g, c.groups.lookup g = d.groups.lookup g

/-- The first gid the call looks at makes it return false. -/
def Call.refusedAtOnce (c : ShardConfig) : Call → Bool
  | .join servers => servers.entries.head?.any (fun x => x.1 ∈ c.groups)
  | .leave gids => gids.head?.any (fun gid => gid ∉ c.groups)

section Failures

variable {c c' : ShardConfig} {ok : Bool}

theorem ShardConfig.Same.mem_iff {d : ShardConfig} (h : c.Same d) {g : Tgid} : g ∈ c.groups ↔ g ∈ d.groups := by
  rw [← AList.lookup_isSome, ← AList.lookup_isSome, h.lookup g]

/-- `Join` only adds groups. -/
theorem joinLoop_keeps {l : List (Sigma fun _ : Tgid => List String)} (h : c.joinLoop l = some (c', ok)) :
    c'.num = c.num ∧ c'.shards = c.shards ∧ ∀ g ∈ c.groups, g ∈ c'.groups := by
  induction l generalizing c with
  | nil =>
      cases h
      exact ⟨rfl, rfl, fun g hg => hg⟩
  | cons new rest ih =>
      simp only [ShardConfig.joinLoop] at h
      split at h
      · cases h
        exact ⟨rfl, rfl, fun g hg => hg⟩
      · split at h
        · cases h
        · obtain ⟨hnum, hshards, hgroups⟩ := ih h
          exact ⟨hnum, hshards, fun g hg => hgroups g ((AList.mem_insert _).mpr (Or.inr hg))⟩

/-- `Leave` only removes groups. -/
theorem leaveLoop_keeps {gids : List Tgid} (h : c.leaveLoop gids = (c', ok)) :
    c'.num = c.num ∧ c'.shards = c.shards ∧ ∀ g ∈ c'.groups, g ∈ c.groups := by
  induction gids generalizing c with
  | nil =>
      cases h
      exact ⟨rfl, rfl, fun g hg => hg⟩
  | cons gid rest ih =>
      simp only [ShardConfig.leaveLoop] at h
      split at h
      · obtain ⟨hnum, hshards, hgroups⟩ := ih h
        exact ⟨hnum, hshards, fun g hg => ((AList.mem_erase).mp (hgroups g hg)).2⟩
      · cases h
        exact ⟨rfl, rfl, fun g hg => hg⟩

theorem join_false_iff {servers : Groups} :
    c.join servers = some (c', false) ↔ c.joinLoop servers.entries = some (c', false) := by
  unfold ShardConfig.join
  rw [Option.bind_eq_some_iff]
  constructor
  · rintro ⟨⟨mid, ok⟩, hloop, hout⟩
    cases ok with
    | false =>
        cases hout
        exact hloop
    | true =>
        rw [if_neg (by simp)] at hout
        split at hout <;> cases hout
  · intro hloop
    exact ⟨_, hloop, rfl⟩

theorem leave_false_iff {gids : List Tgid} :
    c.leave gids = some (c', false) ↔ c.leaveLoop gids = (c', false) := by
  unfold ShardConfig.leave
  rcases c.leaveLoop gids with ⟨mid, ok⟩
  cases ok with
  | false => simp
  | true =>
      simp only [Bool.true_eq_false, if_false]
      split <;> simp

/-- A call that returns false has not rebalanced. -/
theorem reconfigure_false_iff {call : Call} :
    c.reconfigure call = some (c', false) ↔ c.regroup call = some (c', false) := by
  have hmap : ∀ x : Option (ShardConfig × Bool),
      x.map (fun out => if out.2 = false then out else (out.1.rebalance, true)) = some (c', false)
        ↔ x = some (c', false) := by
    rintro (_ | ⟨mid, _ | _⟩) <;> simp
  cases call with
  | join servers => exact hmap _
  | leave gids => exact hmap _

/-- The loops on their first gid: the call returns false there and then, or the groups change for good. -/
theorem joinLoop_same_iff {l : List (Sigma fun _ : Tgid => List String)} (h : c.joinLoop l = some (c', false)) :
    c'.Same c ↔ l.head?.any (fun x => x.1 ∈ c.groups) = true := by
  cases l with
  | nil => cases h
  | cons new rest =>
      show _ ↔ decide (new.1 ∈ c.groups) = true
      rw [decide_eq_true_iff]
      simp only [ShardConfig.joinLoop] at h
      split at h
      case isTrue hin =>
          cases h
          exact ⟨fun _ => hin, fun _ => ⟨rfl, rfl, fun _ => rfl⟩⟩
      case isFalse hnew =>
          split at h
          · cases h
          · obtain ⟨_, _, hkept⟩ := joinLoop_keeps h
            have hadded : new.1 ∈ c'.groups := hkept _ ((AList.mem_insert _).mpr (Or.inl rfl))
            exact ⟨fun hsame => hsame.mem_iff.mp hadded, fun hin => absurd hin hnew⟩

theorem leaveLoop_same_iff {gids : List Tgid} (h : c.leaveLoop gids = (c', false)) :
    c'.Same c ↔ gids.head?.any (fun gid => gid ∉ c.groups) = true := by
  cases gids with
  | nil => cases h
  | cons gid rest =>
      show _ ↔ decide (gid ∉ c.groups) = true
      rw [decide_eq_true_iff]
      simp only [ShardConfig.leaveLoop] at h
      split at h
      case isTrue hin =>
          obtain ⟨_, _, hkept⟩ := leaveLoop_keeps h
          have hgone : gid ∉ c'.groups := fun hmem => (AList.mem_erase.mp (hkept _ hmem)).1 rfl
          exact ⟨fun hsame => absurd (hsame.mem_iff.mpr hin) hgone, fun hout => absurd hin hout⟩
      case isFalse hout =>
          cases h
          exact ⟨fun _ => hout, fun _ => ⟨rfl, rfl, fun _ => rfl⟩⟩

/-- **When a refused call changes nothing.** A call that returns false leaves the configuration alone if and only if
it returns false at the first gid it looks at. Number and shards stay in any case. -/
theorem refused_same_iff {call : Call}
    (h : c.reconfigure call = some (c', false) ∨ c.regroup call = some (c', false)) :
    c'.num = c.num ∧ c'.shards = c.shards ∧ (c'.Same c ↔ call.refusedAtOnce c = true) := by
  replace h : c.regroup call = some (c', false) := h.elim reconfigure_false_iff.mp id
  cases call with
  | join servers =>
      have hloop := join_false_iff.mp h
      obtain ⟨hnum, hshards, _⟩ := joinLoop_keeps hloop
      exact ⟨hnum, hshards, joinLoop_same_iff hloop⟩
  | leave gids =>
      have hloop := leave_false_iff.mp h
      obtain ⟨hnum, hshards, _⟩ := leaveLoop_keeps hloop
      exact ⟨hnum, hshards, leaveLoop_same_iff hloop⟩

/-- One group. -/
def oneGroup : ShardConfig := { groups := AList.insert 1 ["a"] ∅ }

/-- Two groups to join. Group 1 is there already, and group 2 is looked at before it. -/
def rejoining : Groups := AList.insert 2 ["b"] (AList.insert 1 ["c"] ∅)

/-- Group 2 is not there and is the first to leave, so group 1 stays. -/
theorem refused_same_iff_first : ∃ c', oneGroup.leaveBalance [2, 1] = some (c', false) ∧ c'.Same oneGroup := by
  have hleave : oneGroup.reconfigure (.leave [2, 1]) = some (oneGroup, false) := rfl
  exact ⟨oneGroup, hleave, (refused_same_iff (Or.inl hleave)).2.2.mpr (by decide)⟩

/-- Group 2 has joined and group 1 has left, though the calls return false. -/
theorem refused_calls_change_groups :
    (∃ c', oneGroup.joinBalance rejoining = some (c', false) ∧ 2 ∈ c'.groups ∧ 2 ∉ oneGroup.groups) ∧
    ∃ c', oneGroup.leaveBalance [1, 2] = some (c', false) ∧ 1 ∉ c'.groups ∧ 1 ∈ oneGroup.groups := by
  refine ⟨⟨_, rfl, ?_, ?_⟩, ⟨_, rfl, ?_, ?_⟩⟩ <;> decide

end Failures

/-! ## Every range in an order of its own -/

/-- `analyze`, ranging over the groups in the given order. -/
def ShardConfig.analyzeIn (c : ShardConfig) (order : List Tgid) : Analysis :=
  (order.insertionSort (· ≤ ·)).foldl (Analysis.visit c.counts) { mg := -1, mn := -1, lg := -1, ln := 257 }

/-- One round of the loop over unassigned shards. -/
inductive Fills (before : Fin NShards → Tgid) : Progress → Fin NShards → Progress → Prop where
  | keep {st s} : before s ∈ st.cfg.groups → Fills before st s st
  | assign {st s order} : before s ∉ st.cfg.groups → order.Perm st.cfg.groups.keys →
      Fills before st s (st.assign s (st.cfg.analyzeIn order).lg)

/-- The loop over unassigned shards. -/
inductive FillsAll (before : Fin NShards → Tgid) : Progress → List (Fin NShards) → Progress → Prop where
  | nil {st} : FillsAll before st [] st
  | cons {st s st' l st''} : Fills before st s st' → FillsAll before st' l st'' →
      FillsAll before st (s :: l) st''

/-- The loop that moves shards, from where it is to where it breaks. -/
inductive MovesTo : Progress → Progress → Prop where
  | stop {st order} : order.Perm st.cfg.groups.keys →
      (st.cfg.analyzeIn order).mn < (st.cfg.analyzeIn order).ln + 2 → MovesTo st st
  | move {st order s st'} : order.Perm st.cfg.groups.keys →
      ¬ (st.cfg.analyzeIn order).mn < (st.cfg.analyzeIn order).ln + 2 →
      (List.finRange NShards).find? (fun s => st.cfg.shards s = (st.cfg.analyzeIn order).mg) = some s →
      MovesTo (st.assign s (st.cfg.analyzeIn order).lg) st' → MovesTo st st'
  | again {st order st'} : order.Perm st.cfg.groups.keys →
      ¬ (st.cfg.analyzeIn order).mn < (st.cfg.analyzeIn order).ln + 2 →
      (List.finRange NShards).find? (fun s => st.cfg.shards s = (st.cfg.analyzeIn order).mg) = none →
      MovesTo st st' → MovesTo st st'

/-- `Rebalance` may make this of a configuration. -/
inductive ShardConfig.RebalancesTo (c : ShardConfig) : ShardConfig → Prop where
  | empty : c.groups.keys.length < 1 → c.RebalancesTo c.unassignAll.cfg
  | nonempty {mid st} : ¬ c.groups.keys.length < 1 →
      FillsAll c.shards ⟨c, []⟩ (List.finRange NShards) mid → MovesTo mid st → c.RebalancesTo st.cfg

/-- `JoinBalance` returns true and may make this of a configuration. -/
def ShardConfig.JoinBalancesTo (c : ShardConfig) (servers : Groups) (c' : ShardConfig) : Prop :=
  ∃ mid, c.join servers = some (mid, true) ∧ mid.RebalancesTo c'

section Orders

variable {c c' : ShardConfig} {st st' : Progress}

/-- The order is gone after the sort. -/
theorem analyzeIn_eq {order : List Tgid} (h : order.Perm c.groups.keys) : c.analyzeIn order = c.analyze := by
  unfold ShardConfig.analyzeIn ShardConfig.analyze ShardConfig.sortedGids
  have hsorted : order.insertionSort (· ≤ ·) = c.groups.keys.insertionSort (· ≤ ·) := by
    refine List.Perm.eq_of_pairwise' (r := (· ≤ ·)) (List.pairwise_insertionSort _ _)
      (List.pairwise_insertionSort _ _) ?_
    exact (List.perm_insertionSort _ _).trans (h.trans (List.perm_insertionSort _ _).symm)
  rw [hsorted]

/-- A round in any order is the round in the order of the list. -/
theorem fills_iff {before : Fin NShards → Tgid} {s : Fin NShards} :
    Fills before st s st' ↔ st' = st.fillShard before s := by
  unfold Progress.fillShard
  constructor
  · intro h
    cases h with
    | keep hin => rw [if_pos hin]
    | assign hout horder => rw [if_neg hout, analyzeIn_eq horder, ShardConfig.least]
  · rintro rfl
    by_cases hin : before s ∈ st.cfg.groups
    · rw [if_pos hin]
      exact .keep hin
    · rw [if_neg hin]
      exact .assign hin (List.Perm.refl _)

theorem fillsAll_iff {before : Fin NShards → Tgid} {l : List (Fin NShards)} :
    FillsAll before st l st' ↔ st' = l.foldl (Progress.fillShard before) st := by
  constructor
  · intro h
    induction h with
    | nil => rfl
    | cons hfill _ ih =>
        rw [List.foldl_cons, ← fills_iff.mp hfill]
        exact ih
  · rintro rfl
    induction l generalizing st with
    | nil => exact .nil
    | cons s l ih => exact .cons (fills_iff.mpr rfl) ih

theorem moveShard_stop (h : st.cfg.analyze.mn < st.cfg.analyze.ln + 2) : st.moveShard = none := by
  unfold Progress.moveShard
  exact if_pos h

theorem moveShard_move {s : Fin NShards} (h : ¬ st.cfg.analyze.mn < st.cfg.analyze.ln + 2)
    (hfind : (List.finRange NShards).find? (fun s => st.cfg.shards s = st.cfg.analyze.mg) = some s) :
    st.moveShard = some (st.assign s st.cfg.analyze.lg) := by
  unfold Progress.moveShard
  rw [if_neg h, hfind]

theorem moveShard_again (h : ¬ st.cfg.analyze.mn < st.cfg.analyze.ln + 2)
    (hfind : (List.finRange NShards).find? (fun s => st.cfg.shards s = st.cfg.analyze.mg) = none) :
    st.moveShard = some st := by
  unfold Progress.moveShard
  rw [if_neg h, hfind]

/-- The loop, in the rounds it takes. -/
theorem MovesTo.loopIn (h : MovesTo st st') : ∃ n, loopIn Progress.moveShard n st = some st' := by
  induction h with
  | stop horder hbreak =>
      rw [analyzeIn_eq horder] at hbreak
      exact ⟨1, loopIn_succ_of_none (moveShard_stop hbreak) 0⟩
  | @move st order s st' horder hcont hfind _ ih =>
      obtain ⟨n, hn⟩ := ih
      rw [analyzeIn_eq horder] at hcont hfind hn
      exact ⟨n + 1, by rw [loopIn_succ_of_some (moveShard_move hcont hfind), hn]⟩
  | @again st order st' horder hcont hfind _ ih =>
      obtain ⟨n, hn⟩ := ih
      rw [analyzeIn_eq horder] at hcont hfind
      exact ⟨n + 1, by rw [loopIn_succ_of_some (moveShard_again hcont hfind), hn]⟩

/-- Rounds of the loop in the order of the list are rounds in some order. -/
theorem movesTo_of_loopIn {n : Nat} (h : loopIn Progress.moveShard n st = some st') : MovesTo st st' := by
  induction n generalizing st with
  | zero => cases h
  | succ n ih =>
      by_cases hbreak : st.cfg.analyze.mn < st.cfg.analyze.ln + 2
      · rw [loopIn_succ_of_none (moveShard_stop hbreak)] at h
        obtain rfl := Option.some.inj h
        exact .stop (List.Perm.refl _) hbreak
      · cases hfind : (List.finRange NShards).find? (fun s => st.cfg.shards s = st.cfg.analyze.mg) with
        | none =>
            rw [loopIn_succ_of_some (moveShard_again hbreak hfind)] at h
            exact .again (List.Perm.refl _) hbreak hfind (ih h)
        | some s =>
            rw [loopIn_succ_of_some (moveShard_move hbreak hfind)] at h
            exact .move (List.Perm.refl _) hbreak hfind (ih h)

/-- The orders make no difference. -/
theorem rebalancesTo_iff : c.RebalancesTo c' ↔ c' = c.rebalance := by
  constructor
  · intro h
    cases h with
    | empty hempty =>
        have hrounds := rebalanceIn_eq c (Nat.le_refl maxRounds)
        rw [show c.rebalanceIn maxRounds = some c.unassignAll from if_pos hempty] at hrounds
        rw [ShardConfig.rebalance, ← Option.some.inj hrounds]
    | @nonempty mid st hne hfill hmove =>
        obtain ⟨n, hn⟩ := hmove.loopIn
        rw [fillsAll_iff.mp hfill] at hn
        have hmore := loopIn_mono (Nat.le_max_left n maxRounds) hn
        have hrounds := rebalanceIn_eq c (Nat.le_max_right n maxRounds)
        rw [show c.rebalanceIn _ = _ from if_neg hne, ShardConfig.assignUnassigned, hmore] at hrounds
        rw [ShardConfig.rebalance, ← Option.some.inj hrounds]
  · rintro rfl
    have hrounds := rebalanceIn_eq c (Nat.le_refl maxRounds)
    by_cases hempty : c.groups.keys.length < 1
    · rw [show c.rebalanceIn maxRounds = some c.unassignAll from if_pos hempty] at hrounds
      rw [ShardConfig.rebalance, ← Option.some.inj hrounds]
      exact .empty hempty
    · rw [show c.rebalanceIn maxRounds = _ from if_neg hempty] at hrounds
      exact .nonempty hempty (fillsAll_iff.mpr rfl) (movesTo_of_loopIn hrounds)

end Orders

/-! ## Two controllers -/

section Agreement

variable {c c' d : ShardConfig} {st st' t : Progress}

theorem ShardConfig.Same.keys_perm (h : c.Same d) : c.groups.keys.Perm d.groups.keys := by
  rw [List.perm_ext_iff_of_nodup c.groups.keys_nodup d.groups.keys_nodup]
  intro g
  show g ∈ c.groups ↔ g ∈ d.groups
  exact h.mem_iff

theorem ShardConfig.Same.analyzeIn (h : c.Same d) (order : List Tgid) :
    c.analyzeIn order = d.analyzeIn order := by
  unfold ShardConfig.analyzeIn ShardConfig.counts
  rw [h.shards]

theorem ShardConfig.Same.assign (h : st.cfg.Same t.cfg) (s : Fin NShards) (g : Tgid) :
    (st.assign s g).cfg.Same (t.assign s g).cfg := by
  refine ⟨h.num, ?_, h.lookup⟩
  rw [assign_shards, assign_shards, h.shards]

/-- What one of them can do in a round the other one can do, in the same order. -/
theorem Fills.same {before : Fin NShards → Tgid} {s : Fin NShards} (hfill : Fills before st s st')
    (h : st.cfg.Same t.cfg) : ∃ t', Fills before t s t' ∧ st'.cfg.Same t'.cfg := by
  cases hfill with
  | keep hin => exact ⟨t, .keep (h.mem_iff.mp hin), h⟩
  | assign hout horder =>
      rw [h.analyzeIn]
      exact ⟨_, .assign (fun hin => hout (h.mem_iff.mpr hin)) (horder.trans h.keys_perm), h.assign s _⟩

theorem FillsAll.same {before : Fin NShards → Tgid} {l : List (Fin NShards)} (hfill : FillsAll before st l st')
    (h : st.cfg.Same t.cfg) : ∃ t', FillsAll before t l t' ∧ st'.cfg.Same t'.cfg := by
  induction hfill generalizing t with
  | nil => exact ⟨t, .nil, h⟩
  | cons hone _ ih =>
      obtain ⟨t₁, hone', h₁⟩ := hone.same h
      obtain ⟨t', hrest, h'⟩ := ih h₁
      exact ⟨t', .cons hone' hrest, h'⟩

theorem MovesTo.same (hmove : MovesTo st st') (h : st.cfg.Same t.cfg) :
    ∃ t', MovesTo t t' ∧ st'.cfg.Same t'.cfg := by
  induction hmove generalizing t with
  | stop horder hbreak =>
      rw [h.analyzeIn] at hbreak
      exact ⟨t, .stop (horder.trans h.keys_perm) hbreak, h⟩
  | move horder hcont hfind _ ih =>
      rw [h.analyzeIn] at hcont hfind ih
      rw [h.shards] at hfind
      obtain ⟨t', hrest, h'⟩ := ih (h.assign _ _)
      exact ⟨t', .move (horder.trans h.keys_perm) hcont hfind hrest, h'⟩
  | again horder hcont hfind _ ih =>
      rw [h.analyzeIn] at hcont hfind
      rw [h.shards] at hfind
      obtain ⟨t', hrest, h'⟩ := ih h
      exact ⟨t', .again (horder.trans h.keys_perm) hcont hfind hrest, h'⟩

theorem ShardConfig.RebalancesTo.same (hc : c.RebalancesTo c') (h : c.Same d) :
    ∃ d', d.RebalancesTo d' ∧ c'.Same d' := by
  have hlen := h.keys_perm.length_eq
  cases hc with
  | empty hempty =>
      have hsame : ∀ l : List (Fin NShards),
          (l.foldl (fun st s => Progress.assign st s 0) ⟨c, []⟩).cfg.Same
            (l.foldl (fun st s => Progress.assign st s 0) ⟨d, []⟩).cfg := by
        intro l
        induction l using List.reverseRecOn with
        | nil => exact h
        | append_singleton l s ih =>
            rw [List.foldl_append, List.foldl_append]
            exact ih.assign s 0
      exact ⟨_, .empty (hlen ▸ hempty), hsame _⟩
  | nonempty hne hfill hmove =>
      have hstart : (⟨c, []⟩ : Progress).cfg.Same (⟨d, []⟩ : Progress).cfg := h
      obtain ⟨mid, hfill', hmid⟩ := hfill.same hstart
      obtain ⟨st, hmove', hst⟩ := hmove.same hmid
      rw [h.shards] at hfill'
      exact ⟨_, .nonempty (hlen ▸ hne) hfill' hmove', hst⟩

/-! `Join` returns true for groups that are new and share no server, with the old ones or with each other. That
does not depend on which comes first. -/

/-- What the loop of `Join` checks, without the order of its checks. -/
structure ShardConfig.Joinable (c : ShardConfig) (l : List (Sigma fun _ : Tgid => List String)) : Prop where
  fresh : ∀ x ∈ l, x.1 ∉ c.groups
  apart : ∀ x ∈ l, ∀ g servers, c.groups.lookup g = some servers → List.Disjoint servers x.2
  distinct : ∀ x ∈ l, ∀ y ∈ l, x.1 ≠ y.1 → List.Disjoint x.2 y.2

theorem sharesServer_eq_false {servers : List String}
    (h : ∀ g l, c.groups.lookup g = some l → List.Disjoint l servers) : c.sharesServer servers = false := by
  rw [Bool.eq_false_iff]
  intro hshare
  obtain ⟨x, hx, hany⟩ := List.any_eq_true.mp hshare
  obtain ⟨s1, hs1, hany⟩ := List.any_eq_true.mp hany
  obtain ⟨s2, hs2, heq⟩ := List.any_eq_true.mp hany
  obtain rfl : s1 = s2 := of_decide_eq_true heq
  exact h x.1 x.2 (AList.mem_lookup_iff.mpr hx) hs1 hs2

/-- If the loop gets to its end the groups are joinable. -/
theorem joinable_of_joinLoop {l : List (Sigma fun _ : Tgid => List String)}
    (h : c.joinLoop l = some (c', true)) : c.Joinable l := by
  induction l generalizing c with
  | nil => constructor <;> simp
  | cons new rest ih =>
      obtain ⟨gid, servers⟩ := new
      obtain ⟨hnew, hshare, hrest⟩ := joinLoop_cons h
      have hj := ih hrest
      have hfirst : (c.groups.insert gid servers).lookup gid = some servers := AList.lookup_insert _
      -- the later groups were checked against this one when it was in already
      have hapart : ∀ x ∈ rest, List.Disjoint servers x.2 := fun x hx => hj.apart x hx gid servers hfirst
      have hold : ∀ x ∈ rest, ∀ g old, c.groups.lookup g = some old → List.Disjoint old x.2 := by
        intro x hx g old hg
        have hne : g ≠ gid := by
          rintro rfl
          rw [AList.lookup_eq_none.mpr hnew] at hg
          cases hg
        exact hj.apart x hx g old (by rw [AList.lookup_insert_ne hne, hg])
      constructor
      · intro x hx
        rcases List.mem_cons.mp hx with rfl | hx
        · exact hnew
        · exact fun hin => hj.fresh x hx ((AList.mem_insert _).mpr (Or.inr hin))
      · intro x hx
        rcases List.mem_cons.mp hx with rfl | hx
        · exact fun g old hg => disjoint_of_sharesServer hshare hg
        · exact hold x hx
      · intro x hx y hy hne
        rcases List.mem_cons.mp hx with rfl | hx <;> rcases List.mem_cons.mp hy with rfl | hy
        · exact absurd rfl hne
        · exact hapart y hy
        · exact (hapart x hx).symm
        · exact hj.distinct x hx y hy hne

theorem ShardConfig.Joinable.joinLoop {l : List (Sigma fun _ : Tgid => List String)} (hj : c.Joinable l)
    (hnodup : l.NodupKeys) : ∃ mid, c.joinLoop l = some (mid, true) := by
  induction l generalizing c with
  | nil => exact ⟨c, rfl⟩
  | cons new rest ih =>
      obtain ⟨gid, servers⟩ := new
      obtain ⟨hgid, hnodup⟩ := List.nodupKeys_cons.mp hnodup
      have hnew := hj.fresh _ (List.mem_cons_self ..)
      have hshare := sharesServer_eq_false (hj.apart _ (List.mem_cons_self ..))
      have hne : ∀ x ∈ rest, x.1 ≠ gid := by
        rintro x hx rfl
        have hin : x.1 ∈ rest.keys := List.mem_keys_of_mem hx
        exact hgid hin
      -- what is left can join the larger configuration: the new group is apart from it as well
      have hnext : ShardConfig.Joinable { c with groups := c.groups.insert gid servers } rest := by
        constructor
        · intro x hx hin
          rcases (AList.mem_insert _).mp hin with heq | hin
          · exact hne x hx heq
          · exact hj.fresh x (List.mem_cons_of_mem _ hx) hin
        · intro x hx g old hg
          by_cases heq : g = gid
          · subst heq
            have hg : (c.groups.insert g servers).lookup g = some old := hg
            rw [AList.lookup_insert] at hg
            cases hg
            exact hj.distinct _ (List.mem_cons_self ..) x (List.mem_cons_of_mem _ hx) (hne x hx).symm
          · exact hj.apart x (List.mem_cons_of_mem _ hx) g old ((AList.lookup_insert_ne heq).symm.trans hg)
        · intro x hx y hy
          exact hj.distinct x (List.mem_cons_of_mem _ hx) y (List.mem_cons_of_mem _ hy)
      obtain ⟨mid, hmid⟩ := ih hnext hnodup
      refine ⟨mid, ?_⟩
      simp only [ShardConfig.joinLoop, if_neg hnew, hshare, Bool.false_eq_true, if_false]
      exact hmid

/-- `Join` returns true when its loop gets to its end and had something to do. -/
theorem join_true_iff {servers : Groups} :
    c.join servers = some (c', true) ↔
      ∃ mid, c.joinLoop servers.entries = some (mid, true) ∧ servers.entries ≠ [] ∧
        c' = { mid with num := mid.num + 1 } := by
  unfold ShardConfig.join
  constructor
  · intro h
    obtain ⟨⟨mid, ok⟩, hloop, h⟩ := Option.bind_eq_some_iff.mp h
    cases ok with
    | false => cases h
    | true =>
        dsimp only at h
        by_cases hempty : servers.entries = []
        · rw [if_pos hempty] at h
          cases h
        · rw [if_neg hempty] at h
          cases h
          exact ⟨mid, hloop, hempty, rfl⟩
  · rintro ⟨mid, hloop, hempty, rfl⟩
    rw [hloop, Option.bind_some, if_neg (by simp), if_neg hempty]

/-- Joining the same groups to the same configuration. -/
theorem ShardConfig.Same.join {servers servers' : Groups} (h : c.Same d)
    (hservers : ∀ g, servers.lookup g = servers'.lookup g) (hjoin : c.join servers = some (c', true)) :
    ∃ d', d.join servers' = some (d', true) ∧ c'.Same d' := by
  have hentries : ∀ x, x ∈ servers.entries ↔ x ∈ servers'.entries := by
    rintro ⟨g, l⟩
    rw [← AList.mem_lookup_iff, ← AList.mem_lookup_iff, hservers g]
  obtain ⟨mid, hloop, hne, rfl⟩ := join_true_iff.mp hjoin
  have hj := joinable_of_joinLoop hloop
  have hj' : d.Joinable servers'.entries := by
    constructor
    · exact fun x hx hin => hj.fresh x ((hentries x).mpr hx) (h.mem_iff.mpr hin)
    · exact fun x hx g old hg => hj.apart x ((hentries x).mpr hx) g old ((h.lookup g).trans hg)
    · exact fun x hx y hy => hj.distinct x ((hentries x).mpr hx) y ((hentries y).mpr hy)
  obtain ⟨mid', hloop'⟩ := hj'.joinLoop servers'.nodupKeys
  have hne' : servers'.entries ≠ [] := by
    obtain ⟨x, hx⟩ := List.exists_mem_of_ne_nil _ hne
    exact List.ne_nil_of_mem ((hentries x).mp hx)
  refine ⟨_, join_true_iff.mpr ⟨mid', hloop', hne', rfl⟩, ?_⟩
  obtain ⟨hnum, hshards, hlookup, _⟩ := joinLoop_spec hloop
  obtain ⟨hnum', hshards', hlookup', _⟩ := joinLoop_spec hloop'
  refine ⟨?_, ?_, fun g => ?_⟩
  · show mid.num + 1 = mid'.num + 1
    rw [hnum, hnum', h.num]
  · exact hshards.trans (h.shards.trans hshards'.symm)
  · show mid.groups.lookup g = mid'.groups.lookup g
    rw [hlookup g, hlookup' g, h.lookup g]
    exact congrArg (fun o => o.or (d.groups.lookup g)) (hservers g)

/-- **The order of a map makes no difference to a call that returns true.** Two controllers with the same
configuration come to the same next one, whatever the orders in which each of them ranges over its maps. If the groups
can join in one order they can in any. -/
theorem orders_agree {servers servers' : Groups} (h : c.Same d)
    (hservers : ∀ g, servers.lookup g = servers'.lookup g) :
    (∃ c', c.RebalancesTo c') ∧
    (∀ c' d', c.RebalancesTo c' → d.RebalancesTo d' → c'.Same d') ∧
    ∀ c', c.JoinBalancesTo servers c' →
      (∃ d', d.JoinBalancesTo servers' d') ∧ ∀ d', d.JoinBalancesTo servers' d' → c'.Same d' := by
  have hagree : ∀ {c d c' d' : ShardConfig}, c.Same d → c.RebalancesTo c' → d.RebalancesTo d' → c'.Same d' := by
    intro c d c' d' h hc hd
    obtain ⟨d'', hd'', hsame⟩ := hc.same h
    rw [rebalancesTo_iff.mp hd, ← rebalancesTo_iff.mp hd'']
    exact hsame
  refine ⟨⟨_, rebalancesTo_iff.mpr rfl⟩, fun c' d' hc hd => hagree h hc hd, fun c' hc => ?_⟩
  obtain ⟨mid, hjoin, hc⟩ := hc
  obtain ⟨mid', hjoin', hmid⟩ := h.join hservers hjoin
  refine ⟨⟨_, mid', hjoin', rebalancesTo_iff.mpr rfl⟩, fun d' hd => ?_⟩
  obtain ⟨mid'', hjoin'', hd⟩ := hd
  cases hjoin'.symm.trans hjoin''
  exact hagree hmid hc hd

/-- Two groups, in the two orders. -/
def ascending : Groups := AList.insert 1 ["a"] (AList.insert 2 ["b"] ∅)

/-- The other order. -/
def descending : Groups := AList.insert 2 ["b"] (AList.insert 1 ["a"] ∅)

/-- Joined in either order, the two groups give one configuration. -/
theorem orders_agree_pair :
    ascending.entries ≠ descending.entries ∧
    ∃ c' d', ShardConfig.JoinBalancesTo {} ascending c' ∧ ShardConfig.JoinBalancesTo {} descending d' ∧
      c'.Same d' := by
  have hservers : ∀ g, ascending.lookup g = descending.lookup g :=
    fun g => AList.perm_lookup (AList.insert_insert_of_ne ∅ (by decide))
  have hjoin : ShardConfig.JoinBalancesTo {} ascending _ := ⟨_, rfl, rebalancesTo_iff.mpr rfl⟩
  obtain ⟨⟨d', hd'⟩, hagree⟩ := (orders_agree ⟨rfl, rfl, fun _ => rfl⟩ hservers).2.2 _ hjoin
  exact ⟨by decide, _, d', hjoin, hd', hagree d' hd'⟩

end Agreement

end ShardCfg
end DistributedLabs
