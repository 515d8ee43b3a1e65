import Mathlib.Data.Fintype.Fin
import Mathlib.Data.List.AList
import Mathlib.Data.List.Sort
import DistributedLabs.Lib.Balance
import DistributedLabs.Lib.Loop
import DistributedLabs.MapReduce.Records

/-!
# `ShardCfg.Config` — shard configurations and what is done to them

`shardkv1/shardcfg/shardcfg.go`. A Go map is an association list here; where the source ranges over a map the
order is that of the list, and since nothing is assumed of it every order is covered. `Tnum` and `Tshid` are
Go's `int`, 64 bits wide. A call of `log.Fatalf`, and an index outside the array, end the process: `none`.

`Rebalance` ends with a loop that has no bound. It is given a number of rounds, and `none` if they do not
suffice; `ShardCfg.Rebalance` shows that they always do. What is also kept is the list of the shards that were
assigned to, in order.

`NShards` is small, so the array is a function on `Fin NShards`; the loops over it go through `List.finRange`. Gids are
Go's `int` in the source and integers here: they are compared and never computed with.
-/

namespace DistributedLabs
namespace ShardCfg

open Lib

abbrev Tgid := Int
abbrev Tnum := Int64
abbrev Tshid := Int64

def NShards : Nat := 12

/-- A map from gids to lists of servers. -/
abbrev Groups := AList (fun _ : Tgid => List String)

/-- `ShardConfig`: its number, the gid of each shard, and the servers of each group. The gid 0 is no group. -/
structure ShardConfig where
  num : Tnum := 0
  shards : Fin NShards → Tgid := fun _ => 0
  groups : Groups := ∅

def makeShardConfig : ShardConfig := {}

/-! ## Counting -/

/-- `counts[g]`, after the loop that fills `counts`. -/
def ShardConfig.counts (c : ShardConfig) (g : Tgid) : Nat := load c.shards g

/-- The results of `analyze`: `mostgroup, mostn, leastgroup, leastn`. -/
structure Analysis where
  mg : Tgid
  mn : Int
  lg : Tgid
  ln : Int
deriving DecidableEq, Repr

/-- The gids in `slices.Sort` order. -/
def ShardConfig.sortedGids (c : ShardConfig) : List Tgid := c.groups.keys.insertionSort (· ≤ ·)

/-- One round of the loop of `analyze`. -/
def Analysis.visit (counts : Tgid → Nat) (a : Analysis) (g : Tgid) : Analysis :=
  let a := if (counts g : Int) < a.ln then { a with ln := counts g, lg := g } else a
  if (counts g : Int) > a.mn then { a with mn := counts g, mg := g } else a

/-- `analyze`. What it starts from stays where there is no group. -/
def ShardConfig.analyze (c : ShardConfig) : Analysis :=
  c.sortedGids.foldl (Analysis.visit c.counts) { mg := -1, mn := -1, lg := -1, ln := 257 }

/-- `least`: the gid of a lightest group. -/
def ShardConfig.least (c : ShardConfig) : Tgid := c.analyze.lg

/-! ## Rebalance -/

/-- A configuration in the middle of `Rebalance`, and the shards that were assigned to so far. -/
structure Progress where
  cfg : ShardConfig
  assigned : List (Fin NShards) := []

/-- `c.Shards[s] = g`. -/
def Progress.assign (st : Progress) (s : Fin NShards) (g : Tgid) : Progress :=
  ⟨{ st.cfg with shards := Function.update st.cfg.shards s g }, st.assigned ++ [s]⟩

/-- The loop for a configuration without groups. -/
def ShardConfig.unassignAll (c : ShardConfig) : Progress :=
  (List.finRange NShards).foldl (fun st s => st.assign s 0) ⟨c, []⟩

/-- One round of the loop over unassigned shards. It ranges over the array as it was before the loop. -/
def Progress.fillShard (before : Fin NShards → Tgid) (st : Progress) (s : Fin NShards) : Progress :=
  if before s ∈ st.cfg.groups then st else st.assign s st.cfg.least

/-- The first loop: shards whose group is gone go to a lightest group. -/
def ShardConfig.assignUnassigned (c : ShardConfig) : Progress :=
  (List.finRange NShards).foldl (Progress.fillShard c.shards) ⟨c, []⟩

/-- One round of the loop that moves shards, or `none` if it breaks. Without a shard to move the round would
    change nothing. -/
def Progress.moveShard (st : Progress) : Option Progress :=
  let a := st.cfg.analyze
  if a.mn < a.ln + 2 then none
  else
    match (List.finRange NShards).find? (fun s => st.cfg.shards s = a.mg) with
    | some s => some (st.assign s a.lg)
    | none => some st

/-- `Rebalance`, with a bound on the rounds of its last loop. -/
def ShardConfig.rebalanceIn (c : ShardConfig) (rounds : Nat) : Option Progress :=
  if c.groups.keys.length < 1 then some c.unassignAll
  else loopIn Progress.moveShard rounds c.assignUnassigned

/-- Enough rounds for every configuration. -/
def maxRounds : Nat := NShards ^ 2 + 1

/-- What `Rebalance` does, given rounds enough. -/
def ShardConfig.rebalanced (c : ShardConfig) : Progress := (c.rebalanceIn maxRounds).getD ⟨c, []⟩

def ShardConfig.rebalance (c : ShardConfig) : ShardConfig := c.rebalanced.cfg

/-! ## Join and Leave -/

/-- Whether a server of a new group is already in another one. -/
def ShardConfig.sharesServer (cfg : ShardConfig) (servers : List String) : Bool :=
  cfg.groups.entries.any (fun x => x.2.any (fun s1 => servers.any (fun s2 => s1 = s2)))

/-- The loop of `Join` over the new groups, up to its `return false` if there is one. -/
def ShardConfig.joinLoop (cfg : ShardConfig) : List (Sigma fun _ : Tgid => List String) →
    Option (ShardConfig × Bool)
  | [] => some (cfg, true)
  | ⟨gid, servers⟩ :: rest =>
      if gid ∈ cfg.groups then some (cfg, false)
      else if cfg.sharesServer servers then none
      else ShardConfig.joinLoop { cfg with groups := cfg.groups.insert gid servers } rest

/-- `Join`. Without a group to join it is fatal. -/
def ShardConfig.join (cfg : ShardConfig) (servers : Groups) : Option (ShardConfig × Bool) :=
  (cfg.joinLoop servers.entries).bind (fun out =>
    if out.2 = false then some out
    else if servers.entries = [] then none
    else some ({ out.1 with num := out.1.num + 1 }, true))

/-- The loop of `Leave` over the gids, up to its `return false` if there is one. -/
def ShardConfig.leaveLoop (cfg : ShardConfig) : List Tgid → ShardConfig × Bool
  | [] => (cfg, true)
  | gid :: rest =>
      if gid ∈ cfg.groups then ShardConfig.leaveLoop { cfg with groups := cfg.groups.erase gid } rest
      else (cfg, false)

/-- `Leave`. Without a group to leave it is fatal. -/
def ShardConfig.leave (cfg : ShardConfig) (gids : List Tgid) : Option (ShardConfig × Bool) :=
  if (cfg.leaveLoop gids).2 = false then some (cfg.leaveLoop gids)
  else if gids = [] then none
  else some ({ (cfg.leaveLoop gids).1 with num := (cfg.leaveLoop gids).1.num + 1 }, true)

def ShardConfig.joinBalance (cfg : ShardConfig) (servers : Groups) : Option (ShardConfig × Bool) :=
  (cfg.join servers).map (fun out => if out.2 = false then out else (out.1.rebalance, true))

def ShardConfig.leaveBalance (cfg : ShardConfig) (gids : List Tgid) : Option (ShardConfig × Bool) :=
  (cfg.leave gids).map (fun out => if out.2 = false then out else (out.1.rebalance, true))

/-! ## Looking things up -/

/-- Which shard is a key in? -/
def key2Shard (key : String) : Tshid :=
  Int64.ofNat (MapReduce.fnv32a (key.toList.flatMap String.utf8EncodeChar)).toNat % Int64.ofNat NShards

/-- The entry of the array at an index, `none` if there is none. -/
def ShardConfig.shardAt (cfg : ShardConfig) (sh : Tshid) : Option Tgid :=
  if h : 0 ≤ sh.toInt ∧ sh.toInt.toNat < NShards then some (cfg.shards ⟨sh.toInt.toNat, h.2⟩) else none

def ShardConfig.gidServers (cfg : ShardConfig) (sh : Tshid) : Option (Tgid × List String × Bool) :=
  (cfg.shardAt sh).map (fun gid =>
    (gid, (cfg.groups.lookup gid).getD [], (cfg.groups.lookup gid).isSome))

/-- `IsMember`: whether the group has a shard. -/
def ShardConfig.isMember (cfg : ShardConfig) (gid : Tgid) : Bool :=
  (List.finRange NShards).any (fun s => cfg.shards s = gid)

end ShardCfg
end DistributedLabs
