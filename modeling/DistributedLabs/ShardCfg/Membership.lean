import DistributedLabs.ShardCfg.Rebalance

/-!
# `ShardCfg.Membership` — what joining and leaving do to a configuration

A call of `JoinBalance` or `LeaveBalance` that returns true changes the groups, adds one to the number, and then
rebalances. `reconfigure_spec` says so for both calls at once: `Call.apply` is the effect on the groups, seen as a
function from gids to server lists. From it follow which shards a call moves, and, by induction over the calls,
what holds of every configuration that can be reached.

The order of the argument:

* `joinLoop_spec`, `leaveLoop_spec`: what the loops make of the groups (`Regrouped`).
* `reconfigure_spec`: a whole call, the rebalancing included.
* `rebalance_minimal`: a call moves as few shards as a balanced assignment allows.
* `ReachedBy`, `reachedBy_run`: the invariant over whole histories, and `reachable_routes` from it.

The number of a configuration is a Go `int`, so it is the number of calls only as long as there are fewer than
`2 ^ 63` of them (`reachable_routes`, `num_overflows`).
-/

namespace DistributedLabs
namespace ShardCfg

open Lib

/-- A call that changes the groups. -/
inductive Call where
  | join (servers : Groups)
  | leave (gids : List Tgid)

/-- `JoinBalance` or `LeaveBalance`. -/
def ShardConfig.reconfigure (c : ShardConfig) : Call → Option (ShardConfig × Bool)
  | .join servers => c.joinBalance servers
  | .leave gids => c.leaveBalance gids

/-- What a call makes of the server lists of the groups. -/
def Call.apply (call : Call) (listed : Tgid → Option (List String)) (gid : Tgid) : Option (List String) :=
  match call with
  | .join servers => (servers.lookup gid).or (listed gid)
  | .leave gids => if gid ∈ gids then none else listed gid

/-- No server is in two groups. -/
def ShardConfig.ServersApart (c : ShardConfig) : Prop :=
  ∀ g g' servers servers', g ≠ g' → c.groups.lookup g = some servers → c.groups.lookup g' = some servers' →
    List.Disjoint servers servers'

/-! ## The loops -/

/-- A new group that passes the check shares no server with an old one. -/
theorem disjoint_of_sharesServer {c : ShardConfig} {servers xservers : List String} {xgid : Tgid}
    (h : c.sharesServer servers = false) (hx : c.groups.lookup xgid = some xservers) :
    List.Disjoint xservers servers := by
  intro s hs1 hs2
  have hentry : Sigma.mk xgid xservers ∈ c.groups.entries := AList.mem_lookup_iff.mp hx
  have hclash : c.sharesServer servers = true := by
    refine List.any_eq_true.mpr ⟨_, hentry, List.any_eq_true.mpr ⟨s, hs1, List.any_eq_true.mpr ⟨s, hs2, ?_⟩⟩⟩
    exact decide_eq_true rfl
  rw [h] at hclash
  cases hclash

theorem ShardConfig.ServersApart.insert {c : ShardConfig} {gid : Tgid} {servers : List String} (h : c.ServersApart)
    (hshare : c.sharesServer servers = false) :
    ShardConfig.ServersApart { c with groups := c.groups.insert gid servers } := by
  intro g g' l l' hne hl hl'
  dsimp only at hl hl'
  by_cases hg : g = gid
  · subst hg
    rw [AList.lookup_insert] at hl
    rw [AList.lookup_insert_ne (Ne.symm hne)] at hl'
    cases hl
    exact (disjoint_of_sharesServer hshare hl').symm
  · rw [AList.lookup_insert_ne hg] at hl
    by_cases hg' : g' = gid
    · subst hg'
      rw [AList.lookup_insert] at hl'
      cases hl'
      exact disjoint_of_sharesServer hshare hl
    · rw [AList.lookup_insert_ne hg'] at hl'
      exact h g g' l l' hne hl hl'

theorem ShardConfig.ServersApart.erase {c : ShardConfig} {gid : Tgid} (h : c.ServersApart) :
    ShardConfig.ServersApart { c with groups := c.groups.erase gid } := by
  have hold : ∀ {g l}, (c.groups.erase gid).lookup g = some l → c.groups.lookup g = some l := by
    intro g l hl
    by_cases hg : g = gid
    · rw [hg, AList.lookup_erase] at hl
      cases hl
    · rwa [AList.lookup_erase_ne hg] at hl
  intro g g' l l' hne hl hl'
  exact h g g' l l' hne (hold hl) (hold hl')

/-- What has become of a configuration before it is rebalanced: it has a new number and other groups. -/
structure Regrouped (c : ShardConfig) (num : Tnum) (listed : Tgid → Option (List String)) (mid : ShardConfig) :
    Prop where
  num : mid.num = num
  shards : mid.shards = c.shards
  lookup : ∀ gid, mid.groups.lookup gid = listed gid
  apart : c.ServersApart → mid.ServersApart

theorem joinLoop_cons {gid : Tgid} {servers : List String} {rest : List (Sigma fun _ : Tgid => List String)}
    {c mid : ShardConfig} (h : c.joinLoop (⟨gid, servers⟩ :: rest) = some (mid, true)) :
    gid ∉ c.groups ∧ c.sharesServer servers = false
      ∧ ShardConfig.joinLoop { c with groups := c.groups.insert gid servers } rest = some (mid, true) := by
  simp only [ShardConfig.joinLoop] at h
  split at h
  · cases h
  split at h
  · cases h
  rename_i hnew hshare
  exact ⟨hnew, by simpa using hshare, h⟩

/-- A group that is there is not joined. -/
theorem joinLoop_fresh {l : List (Sigma fun _ : Tgid => List String)} {c mid : ShardConfig} {gid : Tgid}
    (h : c.joinLoop l = some (mid, true)) (hgid : gid ∈ c.groups) : l.dlookup gid = none := by
  induction l generalizing c with
  | nil => rfl
  | cons new rest ih =>
      obtain ⟨hnew, _, hrest⟩ := joinLoop_cons h
      have hne : gid ≠ new.1 := fun heq => hnew (heq ▸ hgid)
      rw [List.dlookup_cons_ne _ _ hne]
      exact ih hrest ((AList.mem_insert _).mpr (Or.inr hgid))

/-- The loop of `Join` over the groups, when it gets to its end. -/
theorem joinLoop_spec {l : List (Sigma fun _ : Tgid => List String)} {c mid : ShardConfig}
    (h : c.joinLoop l = some (mid, true)) :
    Regrouped c c.num (fun gid => (l.dlookup gid).or (c.groups.lookup gid)) mid := by
  induction l generalizing c with
  | nil =>
      cases h
      exact ⟨rfl, rfl, fun gid => by simp, id⟩
  | cons new rest ih =>
      obtain ⟨gid, servers⟩ := new
      obtain ⟨_, hshare, hrest⟩ := joinLoop_cons h
      obtain ⟨hnum, hshards, hlookup, hapart⟩ := ih hrest
      refine ⟨hnum, hshards, fun gid' => ?_, fun hc => hapart (hc.insert hshare)⟩
      rw [hlookup gid']
      dsimp only
      by_cases hg : gid' = gid
      · subst hg
        have hmem : gid' ∈ c.groups.insert gid' servers := (AList.mem_insert _).mpr (Or.inl rfl)
        rw [List.dlookup_cons_eq, AList.lookup_insert, joinLoop_fresh hrest hmem]
        rfl
      · rw [List.dlookup_cons_ne _ _ hg, AList.lookup_insert_ne hg]

/-- The loop of `Leave` over the gids, when it gets to its end. -/
theorem leaveLoop_spec {gids : List Tgid} {c mid : ShardConfig} (h : c.leaveLoop gids = (mid, true)) :
    Regrouped c c.num (fun gid => if gid ∈ gids then none else c.groups.lookup gid) mid := by
  induction gids generalizing c with
  | nil =>
      cases h
      exact ⟨rfl, rfl, fun gid => by simp, id⟩
  | cons gid rest ih =>
      simp only [ShardConfig.leaveLoop] at h
      split at h
      · obtain ⟨hnum, hshards, hlookup, hapart⟩ := ih h
        refine ⟨hnum, hshards, fun gid' => ?_, fun hc => hapart hc.erase⟩
        rw [hlookup gid']
        dsimp only
        by_cases hg : gid' = gid
        · rw [hg, AList.lookup_erase]
          simp
        · rw [AList.lookup_erase_ne hg]
          simp [hg]
      · cases h

/-! ## A whole call -/

/-- A call that returns true: the groups change, the number goes up by one, and the result is rebalanced. -/
theorem reconfigure_spec {c c' : ShardConfig} {call : Call} (h : c.reconfigure call = some (c', true)) :
    ∃ mid : ShardConfig, Regrouped c (c.num + 1) (call.apply c.groups.lookup) mid ∧ c' = mid.rebalance := by
  cases call with
  | join servers =>
      obtain ⟨out, hjoin, hout⟩ := Option.map_eq_some_iff.mp (show (c.join servers).map _ = _ from h)
      obtain ⟨⟨mid, ok⟩, hloop, hmid⟩ := Option.bind_eq_some_iff.mp (show (c.joinLoop _).bind _ = _ from hjoin)
      cases ok with
      | false =>
          cases hmid
          cases hout
      | true =>
          obtain ⟨hnum, hshards, hlookup, hapart⟩ := joinLoop_spec hloop
          rw [if_neg (by simp)] at hmid
          split at hmid
          · cases hmid
          · cases hmid
            cases hout
            exact ⟨{ mid with num := mid.num + 1 }, ⟨by rw [hnum], hshards, hlookup, hapart⟩, rfl⟩
  | leave gids =>
      obtain ⟨out, hleave, hout⟩ := Option.map_eq_some_iff.mp (show (c.leave gids).map _ = _ from h)
      unfold ShardConfig.leave at hleave
      rcases hloop : c.leaveLoop gids with ⟨mid, ok⟩
      rw [hloop] at hleave
      cases ok with
      | false =>
          cases hleave
          cases hout
      | true =>
          obtain ⟨hnum, hshards, hlookup, hapart⟩ := leaveLoop_spec hloop
          rw [if_neg (by simp)] at hleave
          split at hleave
          · cases hleave
          · cases hleave
            cases hout
            exact ⟨{ mid with num := mid.num + 1 }, ⟨by rw [hnum], hshards, hlookup, hapart⟩, rfl⟩

/-- Every shard is in a group, if there is one, and the groups are balanced. -/
structure ShardConfig.Settled (c : ShardConfig) : Prop where
  valid : c.groups ≠ ∅ → ∀ s, c.shards s ∈ c.groups
  balanced : ∀ g ∈ c.groups, ∀ h ∈ c.groups, c.counts g ≤ c.counts h + 1

section Moves

variable {c c' mid : ShardConfig} {num : Tnum} {listed : Tgid → Option (List String)} {s : Fin NShards}

theorem ShardConfig.Settled.balanced_gids (h : c.Settled) : Balanced c.gids c.shards :=
  fun g hg g' hg' => h.balanced g (mem_gids.mp hg) g' (mem_gids.mp hg')

theorem settled_rebalance (c : ShardConfig) : c.rebalance.Settled := by
  have hmem : ∀ {g}, g ∈ c.rebalance.groups ↔ g ∈ c.gids := by
    intro g
    rw [rebalance_groups, mem_gids]
  constructor
  · intro hne s
    rw [rebalance_groups] at hne
    exact hmem.mpr ((rebalanced_ok (gids_nonempty.mpr hne)).2.1 s)
  · intro g hg g' hg'
    have hg := hmem.mp hg
    exact (rebalanced_ok ⟨g, hg⟩).2.2 g hg g' (hmem.mp hg')

theorem Regrouped.mem_groups (h : Regrouped c num listed mid) {g : Tgid} :
    g ∈ mid.groups ↔ (listed g).isSome = true := by
  rw [← AList.lookup_isSome, h.lookup g]

/-- With a group, the shards are reassigned thriftily, and to groups only. -/
theorem Regrouped.rebalance (h : Regrouped c num listed mid) (hne : mid.gids.Nonempty) :
    Thrifty mid.gids c.shards mid.rebalance.shards ∧ ∀ s, mid.rebalance.shards s ∈ mid.gids := by
  obtain ⟨hok, hvalid, _⟩ := rebalanced_ok hne
  have hthrifty := hok.thrifty
  rw [h.shards] at hthrifty
  exact ⟨hthrifty, hvalid⟩

theorem join_nonempty {servers : Groups} (h : c.joinBalance servers = some (c', true)) :
    ∃ g, g ∈ servers := by
  cases hentries : servers.entries with
  | nil => simp [ShardConfig.joinBalance, ShardConfig.join, hentries, ShardConfig.joinLoop] at h
  | cons new rest =>
      refine ⟨new.1, AList.mem_keys.mpr ?_⟩
      unfold AList.keys
      rw [hentries]
      exact List.mem_cons_self

/-- Shards go to the groups that joined. -/
theorem join_moves {servers : Groups} (hc : c.Settled) (h : c.joinBalance servers = some (c', true))
    (hs : c'.shards s ≠ c.shards s) : c'.shards s ∈ servers := by
  obtain ⟨g, hg⟩ := join_nonempty h
  obtain ⟨mid, hmid, rfl⟩ := reconfigure_spec (show c.reconfigure (.join servers) = some (c', true) from h)
  have hgroups : ∀ g, g ∈ mid.gids ↔ g ∈ servers ∨ g ∈ c.gids := by
    intro g
    rw [mem_gids, hmid.mem_groups, mem_gids, ← AList.lookup_isSome, ← AList.lookup_isSome]
    simp [Call.apply]
  obtain ⟨hthrifty, hvalid⟩ := hmid.rebalance ⟨g, (hgroups g).mpr (Or.inl hg)⟩
  refine ((hgroups _).mp (hvalid s)).resolve_right (fun hold => ?_)
  have hne : c.groups ≠ ∅ := gids_nonempty.mp ⟨_, hold⟩
  exact hthrifty.receivers_new (fun g hg => (hgroups g).mpr (Or.inr hg))
    (fun s => mem_gids.mpr (hc.valid hne s)) hc.balanced_gids hs (hvalid s) hold

theorem leave_nonempty {gids : List Tgid} (h : c.leaveBalance gids = some (c', true)) : c.groups ≠ ∅ := by
  intro hempty
  have hnone : ∀ gid, gid ∉ c.groups := by
    rw [hempty]
    exact AList.notMem_empty
  cases gids with
  | nil => simp [ShardConfig.leaveBalance, ShardConfig.leave, ShardConfig.leaveLoop] at h
  | cons gid rest => simp [ShardConfig.leaveBalance, ShardConfig.leave, ShardConfig.leaveLoop, hnone] at h

/-- Only the shards of the groups that left are moved. -/
theorem leave_moves {gids : List Tgid} (hc : c.Settled) (h : c.leaveBalance gids = some (c', true))
    (hs : c'.shards s ≠ c.shards s) : c.shards s ∈ gids := by
  have hin : c.shards s ∈ c.groups := hc.valid (leave_nonempty h) s
  obtain ⟨mid, hmid, rfl⟩ := reconfigure_spec (show c.reconfigure (.leave gids) = some (c', true) from h)
  have hgroups : ∀ g, g ∈ mid.gids ↔ g ∉ gids ∧ g ∈ c.gids := by
    intro g
    rw [mem_gids, hmid.mem_groups, mem_gids, ← AList.lookup_isSome]
    by_cases hg : g ∈ gids <;> simp [Call.apply, hg]
  by_contra hstay
  have hkept : c.shards s ∈ mid.gids := (hgroups _).mpr ⟨hstay, mem_gids.mpr hin⟩
  obtain ⟨hthrifty, hvalid⟩ := hmid.rebalance ⟨_, hkept⟩
  exact hthrifty.losers_gone (fun g hg => ((hgroups g).mp hg).2) hc.balanced_gids hvalid hs hkept

end Moves

/-- **Rebalance moves as few shards as possible.** With groups, no valid balanced assignment differs from the
    one before in fewer shards, and every shard that was assigned to was assigned to once. From a settled
    configuration, joining moves shards to the new groups only, and leaving moves the shards of the departed
    groups only. -/
theorem rebalance_minimal (c : ShardConfig) :
    (c.groups ≠ ∅ →
      c.rebalance.Settled
      ∧ (∀ t : Fin NShards → Tgid, (∀ s, t s ∈ c.groups) →
          (∀ g ∈ c.groups, ∀ h ∈ c.groups, load t g ≤ load t h + 1) →
          changed c.shards c.rebalance.shards ≤ changed c.shards t)
      ∧ c.rebalanced.assigned.Nodup
      ∧ ∀ s, s ∈ c.rebalanced.assigned ↔ c.rebalance.shards s ≠ c.shards s)
    ∧ (c.Settled → ∀ servers c', c.joinBalance servers = some (c', true) →
        ∀ s, c'.shards s ≠ c.shards s → c'.shards s ∈ servers)
    ∧ (c.Settled → ∀ gids c', c.leaveBalance gids = some (c', true) →
        ∀ s, c'.shards s ≠ c.shards s → c.shards s ∈ gids) := by
  refine ⟨fun hne => ?_, fun hc servers c' h s => join_moves hc h, fun hc gids c' h s => leave_moves hc h⟩
  obtain ⟨hok, hvalid, _⟩ := rebalanced_ok (gids_nonempty.mpr hne)
  refine ⟨settled_rebalance c, fun t ht hbal => ?_, hok.once, hok.moved⟩
  exact hok.thrifty.changed_le hvalid (fun s => mem_gids.mpr (ht s))
    (fun g hg g' hg' => hbal g (mem_gids.mp hg) g' (mem_gids.mp hg'))

/-- Twelve shards on two groups. -/
def twoGroups : ShardConfig := ShardConfig.rebalance { groups := AList.insert 1 ["a", "b"] (AList.insert 2 ["c"] ∅) }

/-- Some shards go to a third group when that joins, and to the one that stays when the other leaves. -/
theorem rebalance_minimal_twoGroups : twoGroups.Settled
    ∧ (∃ c', twoGroups.joinBalance (AList.singleton 3 ["d"]) = some (c', true)
      ∧ (∃ s, c'.shards s ≠ twoGroups.shards s) ∧ ∀ s, c'.shards s ≠ twoGroups.shards s → c'.shards s = 3)
    ∧ ∃ c', twoGroups.leaveBalance [2] = some (c', true)
      ∧ (∃ s, c'.shards s ≠ twoGroups.shards s) ∧ ∀ s, c'.shards s ≠ twoGroups.shards s → twoGroups.shards s = 2 := by
  have hsettled : twoGroups.Settled := settled_rebalance _
  obtain ⟨-, hjoined, hleft⟩ := rebalance_minimal twoGroups
  have hjoin : (twoGroups.joinBalance (AList.singleton 3 ["d"])).map
      (fun out => (decide (∃ s, out.1.shards s ≠ twoGroups.shards s), out.2)) = some (true, true) := by decide +kernel
  have hleave : (twoGroups.leaveBalance [2]).map
      (fun out => (decide (∃ s, out.1.shards s ≠ twoGroups.shards s), out.2)) = some (true, true) := by decide +kernel
  obtain ⟨⟨c₁, ok₁⟩, hc₁, hmoved₁⟩ := Option.map_eq_some_iff.mp hjoin
  obtain ⟨⟨c₂, ok₂⟩, hc₂, hmoved₂⟩ := Option.map_eq_some_iff.mp hleave
  obtain ⟨hsome₁, rfl⟩ := Prod.mk.inj hmoved₁
  obtain ⟨hsome₂, rfl⟩ := Prod.mk.inj hmoved₂
  refine ⟨hsettled, ⟨c₁, hc₁, of_decide_eq_true hsome₁, fun s hs => ?_⟩,
    c₂, hc₂, of_decide_eq_true hsome₂, fun s hs => ?_⟩
  · have hto := hjoined hsettled _ c₁ hc₁ s hs
    simpa [AList.mem_keys] using hto
  · have hfrom := hleft hsettled _ c₂ hc₂ s hs
    simpa using hfrom

/-! ## Whole histories -/

/-- The configuration after a call that returns true. -/
def ShardConfig.accept (c : ShardConfig) (call : Call) : Option ShardConfig :=
  match c.reconfigure call with
  | some (c', true) => some c'
  | _ => none

/-- The configuration after calls on a new one, if all of them return true. -/
def runCalls (calls : List Call) : Option ShardConfig := calls.foldlM ShardConfig.accept makeShardConfig

/-- The server list each group joined with, for the groups that have not left since. -/
def joinedWith (calls : List Call) : Tgid → Option (List String) :=
  calls.foldl (fun listed call => call.apply listed) (fun _ => none)

theorem joinedWith_snoc (calls : List Call) (call : Call) :
    joinedWith (calls ++ [call]) = call.apply (joinedWith calls) := by
  unfold joinedWith
  rw [List.foldl_append]
  rfl

/-- What holds of a configuration after calls. -/
structure ReachedBy (calls : List Call) (c : ShardConfig) : Prop where
  num : c.num = Int64.ofNat calls.length
  listed : ∀ gid, c.groups.lookup gid = joinedWith calls gid
  apart : c.ServersApart
  settled : c.Settled

theorem reachedBy_start : ReachedBy [] makeShardConfig where
  num := rfl
  listed _ := rfl
  apart g g' l l' _ h := by cases h
  settled := ⟨fun h => absurd rfl h, fun g hg => absurd hg (AList.notMem_empty g)⟩

theorem ReachedBy.reconfigure {calls : List Call} {call : Call} {c c' : ShardConfig} (h : ReachedBy calls c)
    (hcall : c.reconfigure call = some (c', true)) : ReachedBy (calls ++ [call]) c' := by
  obtain ⟨mid, hmid, rfl⟩ := reconfigure_spec hcall
  have hgroups := rebalance_groups mid
  refine ⟨?_, fun gid => ?_, ?_, settled_rebalance mid⟩
  · rw [rebalance_num, hmid.num, h.num, List.length_append, Int64.ofNat_add]
    rfl
  · rw [hgroups, hmid.lookup gid, funext h.listed, joinedWith_snoc]
  · unfold ShardConfig.ServersApart
    rw [hgroups]
    exact hmid.apart h.apart

theorem accept_eq_some {c c' : ShardConfig} {call : Call} :
    c.accept call = some c' ↔ c.reconfigure call = some (c', true) := by
  unfold ShardConfig.accept
  split <;> simp_all

theorem runCalls_snoc {calls : List Call} {call : Call} {c' : ShardConfig} :
    runCalls (calls ++ [call]) = some c' ↔
      ∃ c, runCalls calls = some c ∧ c.reconfigure call = some (c', true) := by
  unfold runCalls
  rw [List.foldlM_append]
  simp only [List.foldlM_cons, List.foldlM_nil, Option.bind_eq_bind, Option.bind_eq_some_iff, accept_eq_some,
    Option.pure_def, Option.some.injEq, exists_eq_right]

theorem reachedBy_run {calls : List Call} {c : ShardConfig} (h : runCalls calls = some c) :
    ReachedBy calls c := by
  induction calls using List.reverseRecOn generalizing c with
  | nil =>
      cases h
      exact reachedBy_start
  | append_singleton calls call ih =>
      obtain ⟨c₀, hrun, hcall⟩ := runCalls_snoc.mp h
      exact (ih hrun).reconfigure hcall

/-! ## Routing -/

theorem toInt_key2Shard (key : String) : ∃ n : Nat, n < NShards ∧ (key2Shard key).toInt = n := by
  obtain ⟨h, hh⟩ : ∃ h, MapReduce.fnv32a (key.toList.flatMap String.utf8EncodeChar) = h := ⟨_, rfl⟩
  refine ⟨h.toNat % NShards, Nat.mod_lt _ (by decide), ?_⟩
  have hsmall : h.toNat < 2 ^ 63 := Nat.lt_trans h.toNat_lt (by decide)
  unfold key2Shard
  rw [hh, Int64.toInt_mod, Int64.toInt_ofNat_of_lt hsmall, Int64.toInt_ofNat_of_lt (by decide)]
  exact (Int.ofNat_tmod _ _).symm

theorem shardAt_key2Shard (c : ShardConfig) (key : String) :
    ∃ s, c.shardAt (key2Shard key) = some (c.shards s) := by
  obtain ⟨n, hn, hkey⟩ := toInt_key2Shard key
  refine ⟨⟨n, hn⟩, ?_⟩
  unfold ShardConfig.shardAt
  simp [hkey, hn]

/-- With a group, every key has one, and its servers. -/
theorem gidServers_key2Shard {c : ShardConfig} (h : c.Settled) (hne : c.groups ≠ ∅) (key : String) :
    ∃ gid servers, c.gidServers (key2Shard key) = some (gid, servers, true)
      ∧ c.groups.lookup gid = some servers := by
  obtain ⟨s, hs⟩ := shardAt_key2Shard c key
  obtain ⟨servers, hservers⟩ := Option.isSome_iff_exists.mp (AList.lookup_isSome.mpr (h.valid hne s))
  refine ⟨c.shards s, servers, ?_, hservers⟩
  unfold ShardConfig.gidServers
  rw [hs, Option.map_some, hservers]
  rfl

/-- With no more groups than shards, the groups are those that have a shard. -/
theorem isMember_iff {c : ShardConfig} (h : c.Settled) (hne : c.groups ≠ ∅)
    (hfew : c.groups.keys.length ≤ NShards) (gid : Tgid) : c.isMember gid = true ↔ gid ∈ c.groups := by
  have hmember : c.isMember gid = true ↔ ∃ s, c.shards s = gid := by
    simp [ShardConfig.isMember]
  rw [hmember]
  constructor
  · rintro ⟨s, rfl⟩
    exact h.valid hne s
  · intro hgid
    have hcard : c.gids.card ≤ Fintype.card (Fin NShards) := by
      rw [Fintype.card_fin]
      exact Nat.le_trans (List.toFinset_card_le _) hfew
    have hpos := h.balanced_gids.load_pos (fun s => mem_gids.mpr (h.valid hne s)) hcard (mem_gids.mpr hgid)
    obtain ⟨s, hs⟩ := Finset.card_pos.mp (show 0 < (Finset.univ.filter _).card from hpos)
    exact ⟨s, (Finset.mem_filter.mp hs).2⟩

/-- **Reachable configurations route every key.** After calls that all returned true, the number is that of the
    calls (it is 64 bits wide, so up to `2 ^ 63 - 1` of them), no server is in two groups, with a group every key is in
    a shard of a group whose servers are those it joined with, and with one to `NShards` groups the members are
    the groups. -/
theorem reachable_routes {calls : List Call} {c : ShardConfig} (h : runCalls calls = some c) :
    c.num = Int64.ofNat calls.length
    ∧ (calls.length < 2 ^ 63 → c.num.toInt = calls.length)
    ∧ (∀ g g' servers servers', g ≠ g' → c.groups.lookup g = some servers →
        c.groups.lookup g' = some servers' → ∀ s ∈ servers, s ∉ servers')
    ∧ (c.groups ≠ ∅ → ∀ key, 0 ≤ (key2Shard key).toInt ∧ (key2Shard key).toInt < NShards
        ∧ ∃ gid servers, c.gidServers (key2Shard key) = some (gid, servers, true) ∧ gid ∈ c.groups
          ∧ joinedWith calls gid = some servers)
    ∧ (1 ≤ c.groups.keys.length → c.groups.keys.length ≤ NShards →
        ∀ gid, c.isMember gid = true ↔ gid ∈ c.groups) := by
  have hreached := reachedBy_run h
  refine ⟨hreached.num, fun hfew => ?_, ?_, fun hne key => ?_, fun hsome hfew gid => ?_⟩
  · rw [hreached.num, Int64.toInt_ofNat_of_lt hfew]
  · intro g g' servers servers' hne hg hg' s hs hs'
    exact hreached.apart g g' servers servers' hne hg hg' hs hs'
  · obtain ⟨n, hn, hkey⟩ := toInt_key2Shard key
    obtain ⟨gid, servers, hlookup, hservers⟩ := gidServers_key2Shard hreached.settled hne key
    refine ⟨by omega, by omega, gid, servers, hlookup, ?_, ?_⟩
    · rw [← AList.lookup_isSome, hservers]
      rfl
    · rw [← hreached.listed gid, hservers]
  · refine isMember_iff hreached.settled (fun hempty => ?_) hfew gid
    rw [hempty] at hsome
    exact absurd hsome (by decide)

/-- Two groups join and one of them leaves. -/
def joinLeave : List Call := [.join (AList.insert 1 ["a", "b"] (AList.insert 2 ["c"] ∅)), .leave [2]]

/-- The group that stays has every key, and the other one is no member. -/
theorem reachable_routes_joinLeave :
    ∃ c, runCalls joinLeave = some c ∧ c.num.toInt = 2
      ∧ (∀ key, ∃ gid servers, c.gidServers (key2Shard key) = some (gid, servers, true) ∧ gid ∈ c.groups)
      ∧ c.isMember 1 = true ∧ c.isMember 2 = false := by
  have hrun : (runCalls joinLeave).map (fun c => c.groups.keys) = some [1] := by decide +kernel
  obtain ⟨c, hc, hkeys⟩ := Option.map_eq_some_iff.mp hrun
  have hmem : ∀ g, g ∈ c.groups ↔ g = 1 := fun g => by rw [AList.mem_keys, hkeys, List.mem_singleton]
  have hne : c.groups ≠ ∅ := fun hempty => AList.notMem_empty 1 (hempty ▸ (hmem 1).mpr rfl)
  obtain ⟨_, hnum, _, hroute, hmember⟩ := reachable_routes hc
  have hmember := hmember (by rw [hkeys]; decide) (by rw [hkeys]; decide)
  refine ⟨c, hc, hnum (by decide), fun key => ?_, ?_, ?_⟩
  · obtain ⟨_, _, gid, servers, hservers, hgid, _⟩ := hroute hne key
    exact ⟨gid, servers, hservers, hgid⟩
  · rw [hmember, hmem]
  · rw [Bool.eq_false_iff, Ne, hmember, hmem]
    decide

/-- A group joins and leaves, over and over. -/
def alternating (n : Nat) : List Call :=
  (List.range n).map (fun i => if i % 2 = 0 then .join (AList.singleton 1 []) else .leave [1])

theorem alternating_succ (n : Nat) : alternating (n + 1)
    = alternating n ++ [if n % 2 = 0 then .join (AList.singleton 1 []) else .leave [1]] := by
  unfold alternating
  rw [List.range_succ, List.map_append]
  rfl

theorem joinBalance_single {c : ShardConfig} {gid : Tgid} (h : gid ∉ c.groups) :
    ∃ c', c.joinBalance (AList.singleton gid []) = some (c', true) := by
  simp [ShardConfig.joinBalance, ShardConfig.join, ShardConfig.joinLoop, ShardConfig.sharesServer, h]

theorem leaveBalance_single {c : ShardConfig} {gid : Tgid} (h : gid ∈ c.groups) :
    ∃ c', c.leaveBalance [gid] = some (c', true) := by
  simp [ShardConfig.leaveBalance, ShardConfig.leave, ShardConfig.leaveLoop, h]

theorem joinedWith_alternating (n : Nat) :
    joinedWith (alternating n) 1 = if n % 2 = 0 then none else some [] := by
  induction n with
  | zero => rfl
  | succ n ih =>
      rw [alternating_succ, joinedWith_snoc]
      by_cases heven : n % 2 = 0
      · rw [if_pos heven, if_neg (by omega)]
        rfl
      · rw [if_neg heven, if_pos (by omega)]
        simp [Call.apply]

theorem runCalls_alternating (n : Nat) : ∃ c, runCalls (alternating n) = some c := by
  induction n with
  | zero => exact ⟨makeShardConfig, rfl⟩
  | succ n ih =>
      obtain ⟨c, hrun⟩ := ih
      have hlisted := ((reachedBy_run hrun).listed 1).trans (joinedWith_alternating n)
      rw [alternating_succ]
      by_cases heven : n % 2 = 0
      · rw [if_pos heven] at hlisted ⊢
        obtain ⟨c', hc'⟩ := joinBalance_single (AList.lookup_eq_none.mp hlisted)
        exact ⟨c', runCalls_snoc.mpr ⟨c, hrun, hc'⟩⟩
      · rw [if_neg heven] at hlisted ⊢
        obtain ⟨c', hc'⟩ := leaveBalance_single (AList.lookup_isSome.mp (Option.isSome_of_eq_some hlisted))
        exact ⟨c', runCalls_snoc.mpr ⟨c, hrun, hc'⟩⟩

/-- The number is a Go `int`: after `2 ^ 63` calls it is not their number. -/
theorem num_overflows : ∃ calls c, runCalls calls = some c ∧ c.num.toInt ≠ calls.length := by
  obtain ⟨c, hrun⟩ := runCalls_alternating (2 ^ 63)
  refine ⟨alternating (2 ^ 63), c, hrun, ?_⟩
  have hlength : (alternating (2 ^ 63)).length = 2 ^ 63 := by
    unfold alternating
    rw [List.length_map, List.length_range]
  rw [(reachedBy_run hrun).num, hlength]
  decide

end ShardCfg
end DistributedLabs
