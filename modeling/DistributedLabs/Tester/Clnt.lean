import DistributedLabs.Tester.Connectivity
import Mathlib.Data.List.AList
import Mathlib.Data.List.Perm.Basic

/-!
# `Tester.Clnt` — the ends of a client and the servers it is allowed

`Clnt` of `tester1/clnts.go`: a clerk's ends, made at the first call to a server, and the list of servers it may
connect to. An end is enabled or not when it is made, by the list as it is then; `ConnectAll`, `ConnectTo` and
`DisconnectAll` change the list and go through the ends there are. `ConnectTo` only enables: an end to a server that
the new list leaves out stays as it was (`Revoked`).

The other users of the network are there as well. They use ends of their own, since `MakeEnd` is fatal for a name
that there is already; a `Clnt` carries that its ends have names of their own. An operation holds the lock of the
client, so it is one step. The `ClientEnd` that `Call` goes through is left out, and so is `log`.

## The argument

A server's `link` is all that matters of a client: whether there is an end, whether it is enabled, and whether the
server is allowed. Every operation has its effect on every link (`ClntOp.effect`, `next_link`), so a run of the client
is a run of one link. `Tracks` is the invariant of that run: an end is enabled without being allowed only where the
server was `Revoked`.
-/

namespace DistributedLabs
namespace Tester

open Lib LabRpc

/-! ## The network -/

/-- Deleted from the maps of the network; a name that is not in `enabled` reads as `false`. -/
def Net.deleteEnd (rn : Net) (endname : String) : Option Net :=
  if endname ∈ rn.ends then
    some ⟨rn.ends.filter (· ≠ endname), (rn.tables.apply (.enable endname false)).apply (.connect endname none)⟩
  else none

/-- What is done to the network, by whomever. -/
inductive NetAct where
  | table (a : TableAction String)
  | makeEnd (endname : String)
  | deleteEnd (endname : String)
deriving DecidableEq, Repr

/-- The network after it, or `none` where it is fatal. -/
def Net.act (rn : Net) : NetAct → Option Net
  | .table a => some (rn.apply a)
  | .makeEnd endname => rn.makeEnd endname
  | .deleteEnd endname => rn.deleteEnd endname

/-- The end it is done to. -/
def NetAct.endname : NetAct → Option String
  | .table (.connect endname _) => some endname
  | .table (.enable endname _) => some endname
  | .table _ => none
  | .makeEnd endname => some endname
  | .deleteEnd endname => some endname

/-- An entry of the map `ends` of a client: a server and the name of the end to it. -/
abbrev EndOf := Sigma (fun _ : String => String)

/-- A loop over the ends of a client that enables or disables those to servers that pass the test. -/
def Net.enableEach (rn : Net) (ends : List EndOf) (test : String → Bool) (enabled : Bool) : Net :=
  ends.foldl (fun rn e => if test e.1 then rn.apply (.enable e.2 enabled) else rn) rn

section Network

variable {rn rn' : Net} {x : String}

theorem deleteEnd_spec {endname : String} (h : rn.deleteEnd endname = some rn') (x : String) :
    (x ∈ rn'.ends ↔ x ∈ rn.ends ∧ x ≠ endname) ∧ (x ≠ endname → rn'.tables.enabled x = rn.tables.enabled x) := by
  unfold Net.deleteEnd at h
  split at h
  · cases h
    refine ⟨?_, fun hne => Function.update_of_ne hne ..⟩
    rw [List.mem_filter, decide_eq_true_eq]
  · cases h

/-- An end that is not named stays, enabled or not as it was. -/
theorem act_keeps {a : NetAct} (h : rn.act a = some rn') (ha : a.endname ≠ some x) (hx : x ∈ rn.ends) :
    x ∈ rn'.ends ∧ rn'.tables.enabled x = rn.tables.enabled x := by
  cases a with
  | table a =>
      cases h
      refine ⟨hx, ?_⟩
      cases a with
      | enable endname enabled =>
          have hne : x ≠ endname := fun heq => ha (congrArg some heq.symm)
          exact Function.update_of_ne hne ..
      | _ => rfl
  | makeEnd endname =>
      have hne : x ≠ endname := fun heq => ha (congrArg some heq.symm)
      have hmade := makeEnd_made h none
      refine ⟨(hmade.ends x).mpr (Or.inl hx), (hmade.enabled x).trans (if_neg ?_)⟩
      rw [List.mem_singleton]
      exact hne
  | deleteEnd endname =>
      have hne : x ≠ endname := fun heq => ha (congrArg some heq.symm)
      obtain ⟨hends, henabled⟩ := deleteEnd_spec h x
      exact ⟨hends.mpr ⟨hx, hne⟩, henabled hne⟩

variable {ends ends' : List EndOf} {test : String → Bool} {enabled : Bool}

theorem Net.enableEach_ends (rn : Net) (ends : List EndOf) : (rn.enableEach ends test enabled).ends = rn.ends := by
  induction ends generalizing rn with
  | nil => rfl
  | cons e ends ih =>
      apply (ih _).trans
      dsimp only
      split <;> rfl

theorem Net.enableEach_enabled (rn : Net) (ends : List EndOf) (x : String) :
    (rn.enableEach ends test enabled).tables.enabled x =
      if ∃ e ∈ ends, test e.1 = true ∧ e.2 = x then enabled else rn.tables.enabled x := by
  induction ends generalizing rn with
  | nil => simp [Net.enableEach]
  | cons e ends ih =>
      apply (ih _).trans
      simp only [List.exists_mem_cons_iff]
      by_cases hrest : ∃ e' ∈ ends, test e'.1 = true ∧ e'.2 = x
      · rw [if_pos hrest, if_pos (Or.inr hrest)]
      rw [if_neg hrest]
      by_cases hfirst : test e.1 = true ∧ e.2 = x
      · rw [if_pos (Or.inl hfirst), if_pos hfirst.1, ← hfirst.2]
        exact Function.update_self ..
      · rw [if_neg (not_or.mpr ⟨hfirst, hrest⟩)]
        split
        · rename_i htest
          exact Function.update_of_ne (fun heq => hfirst ⟨htest, heq.symm⟩) ..
        · rfl

theorem apply_enable_comm (rn : Net) (x y : String) (enabled : Bool) :
    (rn.apply (.enable x enabled)).apply (.enable y enabled) =
      (rn.apply (.enable y enabled)).apply (.enable x enabled) := by
  by_cases hxy : x = y
  · rw [hxy]
  · unfold Net.apply Tables.apply
    dsimp only
    rw [Function.update_comm hxy]

/-- Go goes through a map in any order; here they all come to the same. -/
theorem Net.enableEach_perm (h : ends.Perm ends') :
    rn.enableEach ends test enabled = rn.enableEach ends' test enabled := by
  have hcomm : RightCommutative
      (fun (rn : Net) (e : EndOf) => if test e.1 then rn.apply (.enable e.2 enabled) else rn) := by
    constructor
    intro rn a b
    by_cases ha : test a.1 = true <;> by_cases hb : test b.1 = true <;> simp only [ha, hb, if_true]
    · exact apply_enable_comm rn a.2 b.2 enabled
    all_goals rfl
  exact h.foldl_eq rn

end Network

/-! ## The client -/

/-- The test of `allowedL`. `nil` allows every server. -/
def allows (srvs : Option (List String)) (server : String) : Bool :=
  match srvs with
  | none => true
  | some srvs => srvs.any (fun n => n == server)

/-- `Clnt`: its ends by server, and the servers it may connect to. -/
structure Clnt where
  net : Net
  ends : AList (fun _ : String => String)
  srvs : Option (List String)
  known : ∀ server name, ends.lookup server = some name → name ∈ net.ends
  distinct : ∀ server server' name,
    ends.lookup server = some name → ends.lookup server' = some name → server = server'

/-- `makeClntTo`: no ends yet. -/
def makeClntTo (net : Net) (srvs : Option (List String)) : Clnt where
  net := net
  ends := ∅
  srvs := srvs
  known := fun _ _ h => by cases h
  distinct := fun _ _ _ h => by cases h

def Clnt.allowedL (clnt : Clnt) (server : String) : Bool := allows clnt.srvs server

section NewEnd

variable {clnt : Clnt} {server name : String} {rn : Net}

theorem inserted_known (h : MadeEnds clnt.net [name] rn) (s x : String)
    (hx : (clnt.ends.insert server name).lookup s = some x) : x ∈ rn.ends := by
  apply (h.ends x).mpr
  by_cases hs : s = server
  · rw [hs, AList.lookup_insert] at hx
    cases hx
    exact Or.inr (List.mem_singleton_self name)
  · rw [AList.lookup_insert_ne hs] at hx
    exact Or.inl (clnt.known s x hx)

/-- A new name is not among the old ones. -/
theorem inserted_distinct (h : MadeEnds clnt.net [name] rn) (s s' x : String)
    (hx : (clnt.ends.insert server name).lookup s = some x)
    (hx' : (clnt.ends.insert server name).lookup s' = some x) : s = s' := by
  have hfresh : ∀ t, clnt.ends.lookup t ≠ some name :=
    fun t ht => h.fresh name (List.mem_singleton_self name) (clnt.known t name ht)
  by_cases hs : s = server <;> by_cases hs' : s' = server
  · rw [hs, hs']
  · rw [hs, AList.lookup_insert] at hx
    rw [AList.lookup_insert_ne hs', ← hx] at hx'
    exact absurd hx' (hfresh s')
  · rw [hs', AList.lookup_insert] at hx'
    rw [AList.lookup_insert_ne hs, ← hx'] at hx
    exact absurd hx (hfresh s)
  · rw [AList.lookup_insert_ne hs] at hx
    rw [AList.lookup_insert_ne hs'] at hx'
    exact clnt.distinct s s' x hx hx'

end NewEnd

/-- `makeEnd`, with the name that `Randstring` gives; the end is returned by its name. -/
def Clnt.makeEnd (clnt : Clnt) (server name : String) : Option (Clnt × String) :=
  match clnt.ends.lookup server with
  | some e => some (clnt, e)
  | none =>
      match h : clnt.net.makeEnd name with
      | none => none
      | some net =>
          some ({ clnt with
            net := (net.apply (.connect name (some server))).apply
              (if clnt.allowedL server then .enable name true else .enable name false)
            ends := clnt.ends.insert server name
            known := fun s x hx => (inserted_known (makeEnd_made h (some server)) s x hx :)
            distinct := inserted_distinct (makeEnd_made h (some server)) }, name)

/-- The loops of the operations below. -/
def Clnt.enableEach (clnt : Clnt) (test : String → Bool) (enabled : Bool) : Clnt :=
  { clnt with
    net := clnt.net.enableEach clnt.ends.entries test enabled
    known := fun server name h => (Net.enableEach_ends ..).symm ▸ clnt.known server name h }

def Clnt.connectAll (clnt : Clnt) : Clnt := { clnt.enableEach (fun _ => true) true with srvs := none }

def Clnt.connectTo (clnt : Clnt) (srvs : Option (List String)) : Clnt :=
  let clnt := { clnt with srvs := srvs }
  clnt.enableEach clnt.allowedL true

def Clnt.disconnect (clnt : Clnt) (srv : String) : Clnt := clnt.enableEach (fun s => s == srv) false

def Clnt.disconnectAll (clnt : Clnt) : Clnt := { clnt.enableEach (fun _ => true) false with srvs := some [] }

/-- The loop of `remove`; the network is all that is left. -/
def Clnt.remove (clnt : Clnt) : Option Net :=
  clnt.ends.entries.foldlM (fun rn e => rn.deleteEnd e.2) clnt.net

/-- Another user of the network acts on it, not on the ends of this client. -/
def Clnt.others (clnt : Clnt) (a : NetAct) : Option Clnt :=
  if hother : ∀ e ∈ clnt.ends.entries, a.endname ≠ some e.2 then
    match h : clnt.net.act a with
    | none => none
    | some net =>
        some { clnt with
          net := net
          known := fun server name hname =>
            (act_keeps h (hother ⟨server, name⟩ (AList.mem_lookup_iff.mp hname)) (clnt.known server name hname)).1 }
  else none

/-- What happens to a client: its own operations, and what others do to the network. -/
inductive ClntOp where
  | makeEnd (server name : String)
  | connectTo (srvs : Option (List String))
  | connectAll
  | disconnectAll
  | others (a : NetAct)
deriving DecidableEq, Repr

/-- The client after it, or `none` where it is fatal. -/
def Clnt.next (clnt : Clnt) : ClntOp → Option Clnt
  | .makeEnd server name => (clnt.makeEnd server name).map Prod.fst
  | .connectTo srvs => some (clnt.connectTo srvs)
  | .connectAll => some clnt.connectAll
  | .disconnectAll => some clnt.disconnectAll
  | .others a => clnt.others a

/-- A client on a network that it shares with others. -/
def client (net : Net) (srvs : Option (List String)) : LTS Clnt ClntOp where
  init := makeClntTo net srvs
  step := fun clnt op clnt' => clnt.next op = some clnt'

theorem client_computedBy (net : Net) (srvs : Option (List String)) : (client net srvs).ComputedBy Clnt.next :=
  fun _ _ _ => Iff.rfl

/-! ## One server, seen from the client -/

/-- Whether the end to a server is enabled, if there is one, and whether the server is allowed. -/
structure Link where
  enabled : Option Bool
  allowed : Bool
deriving DecidableEq, Repr

/-- The link of a server. -/
def Clnt.link (clnt : Clnt) (server : String) : Link :=
  ⟨(clnt.ends.lookup server).map clnt.net.tables.enabled, clnt.allowedL server⟩

/-- What an operation does to one server's link. `connectTo` is the one that does not set the end to what is
allowed. -/
def ClntOp.effect (server : String) (l : Link) : ClntOp → Link
  | .makeEnd s _ => if s = server then { l with enabled := some (l.enabled.getD l.allowed) } else l
  | .connectTo srvs => ⟨l.enabled.map (fun old => if allows srvs server then true else old), allows srvs server⟩
  | .connectAll => ⟨l.enabled.map (fun _ => true), true⟩
  | .disconnectAll => ⟨l.enabled.map (fun _ => false), false⟩
  | .others _ => l

section Effect

variable {clnt clnt' : Clnt} {server name : String}

theorem mem_entries {e : EndOf} : e ∈ clnt.ends.entries ↔ clnt.ends.lookup e.1 = some e.2 :=
  AList.mem_lookup_iff.symm

/-- The loops reach the end to a server by the server's own name only. -/
theorem enableEach_own {test : String → Bool} {enabled : Bool} (hname : clnt.ends.lookup server = some name) :
    (clnt.enableEach test enabled).net.tables.enabled name =
      if test server then enabled else clnt.net.tables.enabled name := by
  apply (Net.enableEach_enabled ..).trans
  have hown : (∃ e ∈ clnt.ends.entries, test e.1 = true ∧ e.2 = name) ↔ test server = true := by
    constructor
    · rintro ⟨⟨s, x⟩, he, htest, rfl⟩
      rw [clnt.distinct server s x hname (mem_entries.mp he)]
      exact htest
    · intro htest
      exact ⟨⟨server, name⟩, mem_entries.mpr hname, htest, rfl⟩
  simp only [hown]

/-- What a loop does to a server's link. -/
theorem Clnt.enableEach_link (clnt : Clnt) (test : String → Bool) (enabled : Bool) :
    (clnt.enableEach test enabled).link server =
      { clnt.link server with
        enabled := (clnt.link server).enabled.map (fun old => if test server then enabled else old) } := by
  unfold Clnt.link
  dsimp only
  apply congrArg (Link.mk · _)
  change (clnt.ends.lookup server).map (clnt.enableEach test enabled).net.tables.enabled = _
  cases hname : clnt.ends.lookup server with
  | none => rfl
  | some name =>
      rw [Option.map_some, Option.map_some, Option.map_some]
      exact congrArg some (enableEach_own hname)

/-- The link of a client whose list of servers is replaced. -/
theorem Clnt.withSrvs_link (clnt : Clnt) (srvs : Option (List String)) :
    { clnt with srvs := srvs }.link server = { clnt.link server with allowed := allows srvs server } := rfl

theorem Clnt.connectAll_link (clnt : Clnt) (server : String) :
    clnt.connectAll.link server = ClntOp.connectAll.effect server (clnt.link server) := by
  unfold Clnt.connectAll
  rw [Clnt.withSrvs_link, Clnt.enableEach_link]
  rfl

theorem Clnt.disconnectAll_link (clnt : Clnt) (server : String) :
    clnt.disconnectAll.link server = ClntOp.disconnectAll.effect server (clnt.link server) := by
  unfold Clnt.disconnectAll
  rw [Clnt.withSrvs_link, Clnt.enableEach_link]
  rfl

theorem Clnt.connectTo_link (clnt : Clnt) (srvs : Option (List String)) (server : String) :
    (clnt.connectTo srvs).link server = (ClntOp.connectTo srvs).effect server (clnt.link server) := by
  unfold Clnt.connectTo
  dsimp only
  rw [Clnt.enableEach_link, Clnt.withSrvs_link]
  rfl

/-- `Disconnect` does not touch the list: a server that was allowed still is, and cannot be reached. -/
theorem Clnt.disconnect_link (clnt : Clnt) (srv server : String) :
    (clnt.disconnect srv).link server =
      { clnt.link server with
        enabled := (clnt.link server).enabled.map (fun old => if server == srv then false else old) } :=
  Clnt.enableEach_link ..

/-- The two branches of `makeEnd`. -/
theorem enable_new (rn : Net) (name : String) (allowed : Bool) (x : String) :
    (rn.apply (if allowed then .enable name true else .enable name false)).tables.enabled x =
      if x = name then allowed else rn.tables.enabled x := by
  cases allowed <;> exact Function.update_apply ..

/-- A new end is enabled as the list says, and other links stay. -/
theorem makeEnd_link {e : String} (h : clnt.makeEnd server name = some (clnt', e)) (s : String) :
    clnt'.link s = (ClntOp.makeEnd server name).effect s (clnt.link s) := by
  unfold Clnt.makeEnd at h
  change _ = if server = s then _ else _
  split at h
  · -- there is an end already
    rename_i x hx
    cases h
    split
    · rename_i heq
      subst heq
      simp [Clnt.link, hx]
    · rfl
  · rename_i hnone
    split at h
    · cases h
    · rename_i net hnet
      cases h
      have hmade := makeEnd_made hnet (some server)
      by_cases hs : server = s
      · subst hs
        rw [if_pos rfl]
        simp only [Clnt.link, AList.lookup_insert, hnone, Option.map_some, Option.map_none, Option.getD_none,
          enable_new, if_true]
        rfl
      · rw [if_neg hs]
        apply congrArg (Link.mk · _)
        dsimp only
        rw [AList.lookup_insert_ne (Ne.symm hs)]
        apply Option.map_congr
        intro x hx
        -- the new name is none of the client's old ones, so their ends stay as they were
        have hold : x ≠ name := fun heq => hmade.fresh name (List.mem_singleton_self name) (heq ▸ clnt.known s x hx)
        rw [enable_new, if_neg hold, hmade.enabled, if_neg (mt List.mem_singleton.mp hold)]

/-- What others do to the network leaves the links alone. -/
theorem others_link {a : NetAct} (h : clnt.others a = some clnt') : clnt'.link server = clnt.link server := by
  unfold Clnt.others at h
  split at h
  · rename_i hother
    split at h
    · cases h
    · rename_i net hnet
      cases h
      apply congrArg (Link.mk · _)
      apply Option.map_congr
      intro name hname
      have hown := hother ⟨server, name⟩ (mem_entries.mpr hname)
      exact (act_keeps hnet hown (clnt.known server name hname)).2
  · cases h

/-- Every operation has its effect on every link. -/
theorem next_link {op : ClntOp} (h : clnt.next op = some clnt') (server : String) :
    clnt'.link server = op.effect server (clnt.link server) := by
  cases op with
  | makeEnd s name =>
      obtain ⟨⟨made, e⟩, hmake, rfl⟩ := Option.map_eq_some_iff.mp h
      exact makeEnd_link hmake server
  | connectTo srvs =>
      cases h
      exact Clnt.connectTo_link ..
  | connectAll =>
      cases h
      exact Clnt.connectAll_link ..
  | disconnectAll =>
      cases h
      exact Clnt.disconnectAll_link ..
  | others a => exact others_link h

end Effect

/-! ## Enabled and allowed -/

/-- After the operation an end that it leaves alone is still to a server that is not allowed. -/
def ClntOp.keepsOut (server : String) : ClntOp → Bool
  | .makeEnd _ _ => true
  | .connectTo srvs => !allows srvs server
  | .connectAll => false
  | .disconnectAll => false
  | .others _ => true

/-- A `ConnectTo` left the server out when it was allowed and there was an end to it. Since then no list has had the
server, and neither `ConnectAll` nor `DisconnectAll` has gone through the ends. -/
def Revoked (net : Net) (srvs : Option (List String)) (tr : List ClntOp) (server : String) : Prop :=
  ∃ before new since clnt, tr = before ++ ClntOp.connectTo new :: since ∧
    Reaches (client net srvs) before clnt ∧ server ∈ clnt.ends ∧ clnt.allowedL server = true ∧
    allows new server = false ∧ ∀ op ∈ since, op.keepsOut server = true

section Revoking

variable {net : Net} {srvs : Option (List String)} {tr : List ClntOp} {clnt : Clnt} {server : String} {op : ClntOp}

theorem link_isSome : (clnt.link server).enabled.isSome = true ↔ server ∈ clnt.ends := by
  rw [← AList.lookup_isSome]
  show ((clnt.ends.lookup server).map _).isSome = true ↔ _
  rw [Option.isSome_map]

theorem revoked_snoc (hreach : Reaches (client net srvs) tr clnt) :
    Revoked net srvs (tr ++ [op]) server ↔
      (Revoked net srvs tr server ∧ op.keepsOut server = true) ∨
      (server ∈ clnt.ends ∧ clnt.allowedL server = true ∧
        ∃ new, op = .connectTo new ∧ allows new server = false) := by
  constructor
  · rintro ⟨before, new, since, clnt₁, htr, hbefore, hend, hallowed, hnew, hsince⟩
    rcases snoc_eq_append_cons htr with ⟨rfl, rfl, rfl⟩ | ⟨since, rfl, rfl⟩
    · obtain rfl := hreach.det (client_computedBy net srvs) hbefore
      exact Or.inr ⟨hend, hallowed, new, rfl, hnew⟩
    · have hkeep := List.forall_mem_append.mp hsince
      refine Or.inl ⟨⟨before, new, since, clnt₁, rfl, hbefore, hend, hallowed, hnew, hkeep.1⟩, ?_⟩
      exact hkeep.2 op (List.mem_singleton_self op)
  · rintro (⟨⟨before, new, since, clnt₁, rfl, hbefore, hend, hallowed, hnew, hsince⟩, hop⟩ |
      ⟨hend, hallowed, new, rfl, hnew⟩)
    · refine ⟨before, new, since ++ [op], clnt₁, ?_, hbefore, hend, hallowed, hnew, ?_⟩
      · rw [List.append_assoc, List.cons_append]
      · exact List.forall_mem_append.mpr ⟨hsince, List.forall_mem_singleton.mpr hop⟩
    · exact ⟨tr, new, [], clnt, rfl, hreach, hend, hallowed, hnew, fun _ h => absurd h List.not_mem_nil⟩

theorem revoked_connectTo (hreach : Reaches (client net srvs) tr clnt) (new : Option (List String)) :
    Revoked net srvs (tr ++ [.connectTo new]) server ↔
      allows new server = false ∧
        (Revoked net srvs tr server ∨ (server ∈ clnt.ends ∧ clnt.allowedL server = true)) := by
  rw [revoked_snoc hreach]
  simp only [ClntOp.keepsOut, Bool.not_eq_true', ClntOp.connectTo.injEq, exists_eq_left']
  rw [← and_assoc, ← or_and_right, and_comm]

theorem revoked_other (hreach : Reaches (client net srvs) tr clnt) (hop : ∀ new, op ≠ .connectTo new) :
    Revoked net srvs (tr ++ [op]) server ↔ Revoked net srvs tr server ∧ op.keepsOut server = true := by
  rw [revoked_snoc hreach]
  apply or_iff_left
  rintro ⟨_, _, new, heq, _⟩
  exact hop new heq

/-- A link after a run. Only an end to a server that was revoked is enabled without being allowed. -/
structure Tracks (l : Link) (revoked : Prop) : Prop where
  out : revoked → l.allowed = false
  made : revoked → l.enabled.isSome = true
  reach : ∀ b, l.enabled = some b → (b = true ↔ l.allowed = true ∨ revoked)

variable {l : Link} {revoked : Prop}

/-- A new end is enabled if the server is allowed; if there was an end already nothing happens. -/
theorem Tracks.makeEnd (h : Tracks l revoked) :
    Tracks { l with enabled := some (l.enabled.getD l.allowed) } revoked := by
  refine ⟨h.out, fun _ => rfl, ?_⟩
  intro b hb
  cases hl : l.enabled with
  | some old =>
      rw [hl] at hb
      exact h.reach b (hl.trans hb)
  | none =>
      have hnot : ¬ revoked := fun hrev => by
        have hsome := h.made hrev
        rw [hl] at hsome
        cases hsome
      rw [hl] at hb
      cases hb
      exact (or_iff_left hnot).symm

/-- The ends have been gone through and set to what is allowed. -/
theorem Tracks.uniform (allowed : Bool) (hrev : ¬ revoked) :
    Tracks ⟨l.enabled.map (fun _ => allowed), allowed⟩ revoked := by
  refine ⟨fun h => absurd h hrev, fun h => absurd h hrev, ?_⟩
  intro b hb
  obtain ⟨_, _, rfl⟩ := Option.map_eq_some_iff.mp hb
  exact (or_iff_left hrev).symm

/-- Where the new list has the server its end is enabled. Otherwise the end stays, and if it was enabled the server is
revoked now, or was before. -/
theorem Tracks.connectTo (h : Tracks l revoked) (allowed : Bool) :
    Tracks ⟨l.enabled.map (fun old => if allowed then true else old), allowed⟩
      (allowed = false ∧ (revoked ∨ (l.enabled.isSome = true ∧ l.allowed = true))) := by
  refine ⟨fun hrev => hrev.1, ?_, ?_⟩
  · rintro ⟨_, hrev⟩
    dsimp only
    rw [Option.isSome_map]
    exact hrev.elim h.made (fun hlive => hlive.1)
  · intro b hb
    obtain ⟨old, hold, rfl⟩ := Option.map_eq_some_iff.mp hb
    have hreach := h.reach old hold
    cases allowed with
    | true => simp
    | false => simp [hreach, hold, or_comm]

theorem tracks_step {clnt' : Clnt} (hreach : Reaches (client net srvs) tr clnt) (hstep : clnt.next op = some clnt')
    (h : Tracks (clnt.link server) (Revoked net srvs tr server)) :
    Tracks (clnt'.link server) (Revoked net srvs (tr ++ [op]) server) := by
  rw [next_link hstep]
  cases op with
  | makeEnd s name =>
      rw [revoked_other hreach (by simp), ClntOp.keepsOut, and_iff_left rfl]
      change Tracks (if s = server then _ else _) _
      split
      · exact h.makeEnd
      · exact h
  | connectTo new =>
      rw [revoked_connectTo hreach, ← link_isSome]
      exact h.connectTo (allows new server)
  | connectAll =>
      apply Tracks.uniform
      rw [revoked_other hreach (by simp)]
      exact fun hrev => Bool.false_ne_true hrev.2
  | disconnectAll =>
      apply Tracks.uniform
      rw [revoked_other hreach (by simp)]
      exact fun hrev => Bool.false_ne_true hrev.2
  | others a =>
      rw [revoked_other hreach (by simp), ClntOp.keepsOut, and_iff_left rfl]
      exact h

/-- The whole run. -/
theorem tracks (h : Reaches (client net srvs) tr clnt) (server : String) :
    Tracks (clnt.link server) (Revoked net srvs tr server) := by
  refine Reaches.invariant (P := fun tr clnt => Tracks (clnt.link server) (Revoked net srvs tr server)) ?_ ?_ h
  · have hno : ¬ Revoked net srvs [] server := by
      rintro ⟨before, new, since, _, htr, _⟩
      exact List.append_ne_nil_of_right_ne_nil before (List.cons_ne_nil _ _) htr.symm
    refine ⟨fun hrev => absurd hrev hno, fun hrev => absurd hrev hno, ?_⟩
    intro b hb
    cases hb
  · intro tr clnt op clnt' hreach htracks hstep
    exact tracks_step hreach hstep htracks

theorem enabled_iff {name : String} (h : Reaches (client net srvs) tr clnt)
    (hname : clnt.ends.lookup server = some name) :
    clnt.net.tables.enabled name = true ↔ clnt.allowedL server = true ∨ Revoked net srvs tr server := by
  apply (tracks h server).reach
  exact congrArg (Option.map _) hname

/-- **When the ends of a client match its list.** The end to a server is enabled if the server is allowed, and only
then, unless the server is revoked. -/
theorem enabled_iff_allowed_iff {name : String} (h : Reaches (client net srvs) tr clnt)
    (hname : clnt.ends.lookup server = some name) :
    (clnt.net.tables.enabled name = true ↔ clnt.allowedL server = true) ↔ ¬ Revoked net srvs tr server := by
  have henabled := enabled_iff h hname
  constructor
  · intro hiff hrev
    have hout : clnt.allowedL server = false := (tracks h server).out hrev
    have hin := hiff.mp (henabled.mpr (Or.inr hrev))
    rw [hout] at hin
    cases hin
  · intro hnot
    exact henabled.trans (or_iff_left hnot)

end Revoking

/-- The server comes on the list and goes off it again, by way of `DisconnectAll`. -/
theorem enabled_iff_allowed_iff_late :
    ∃ clnt, Reaches (client emptyNet (some ["t"]))
        [.makeEnd "s" "e", .connectTo (some ["t", "s"]), .disconnectAll, .connectTo (some ["t"])] clnt ∧
      clnt.ends.lookup "s" = some "e" ∧
      ¬ Revoked emptyNet (some ["t"])
        [.makeEnd "s" "e", .connectTo (some ["t", "s"]), .disconnectAll, .connectTo (some ["t"])] "s" := by
  have hrun : ∃ clnt, Reaches (client emptyNet (some ["t"]))
        [.makeEnd "s" "e", .connectTo (some ["t", "s"]), .disconnectAll, .connectTo (some ["t"])] clnt ∧
      decide (clnt.ends.lookup "s" = some "e" ∧
        (clnt.net.tables.enabled "e" = true ↔ clnt.allowedL "s" = true)) = true :=
    exists_reaches_with (client_computedBy _ _) _ (by decide +kernel)
  obtain ⟨clnt, hreach, hclnt⟩ := hrun
  obtain ⟨hname, hiff⟩ := of_decide_eq_true hclnt
  exact ⟨clnt, hreach, hname, (enabled_iff_allowed_iff hreach hname).mp hiff⟩

/-- The client has an end to `s`; then it is to connect to `t` only. -/
theorem connectTo_leaves_enabled :
    ∃ clnt, Reaches (client emptyNet none) [.makeEnd "s" "e", .connectTo (some ["t"])] clnt ∧
      clnt.ends.lookup "s" = some "e" ∧ clnt.net.tables.enabled "e" = true ∧ clnt.allowedL "s" = false := by
  have hrun : ∃ clnt, Reaches (client emptyNet none) [.makeEnd "s" "e", .connectTo (some ["t"])] clnt ∧
      decide (clnt.ends.lookup "s" = some "e" ∧ clnt.net.tables.enabled "e" = true ∧
        clnt.allowedL "s" = false) = true :=
    exists_reaches_with (client_computedBy _ _) _ (by decide +kernel)
  obtain ⟨clnt, hreach, hclnt⟩ := hrun
  exact ⟨clnt, hreach, of_decide_eq_true hclnt⟩

/-! ## Removing a client -/

section Remove

variable {ends : List EndOf}

/-- The loop of `remove`: every end is there when its turn comes. -/
theorem deleteEach_spec (rn : Net) (hknown : ∀ e ∈ ends, e.2 ∈ rn.ends) (hnodup : (ends.map Sigma.snd).Nodup) :
    ∃ rn', ends.foldlM (fun rn e => rn.deleteEnd e.2) rn = some rn' ∧
      (∀ x, x ∈ rn'.ends ↔ x ∈ rn.ends ∧ x ∉ ends.map Sigma.snd) ∧
      ∀ x, x ∉ ends.map Sigma.snd → rn'.tables.enabled x = rn.tables.enabled x := by
  induction ends generalizing rn with
  | nil => exact ⟨rn, rfl, by simp, fun _ _ => rfl⟩
  | cons e ends ih =>
      rw [List.map_cons, List.nodup_cons] at hnodup
      obtain ⟨rn₁, hdelete⟩ : ∃ rn₁, rn.deleteEnd e.2 = some rn₁ := ⟨_, if_pos (hknown e List.mem_cons_self)⟩
      have hfirst := deleteEnd_spec hdelete
      have hknown₁ : ∀ e' ∈ ends, e'.2 ∈ rn₁.ends := by
        intro e' he'
        apply (hfirst e'.2).1.mpr
        exact ⟨hknown e' (List.mem_cons_of_mem _ he'), fun heq => hnodup.1 (heq ▸ List.mem_map_of_mem he')⟩
      obtain ⟨rn', hloop, hends, henabled⟩ := ih rn₁ hknown₁ hnodup.2
      refine ⟨rn', ?_, fun x => ?_, fun x hx => ?_⟩
      · rw [List.foldlM_cons, hdelete]
        exact hloop
      · rw [hends, (hfirst x).1, List.map_cons, List.mem_cons, not_or, and_assoc]
      · rw [List.map_cons, List.mem_cons, not_or] at hx
        rw [henabled x hx.2, (hfirst x).2 hx.1]

/-- `remove` is never fatal. It deletes the ends of the client and leaves those of others as they are. -/
theorem remove_spec (clnt : Clnt) :
    ∃ rn, clnt.remove = some rn ∧
      (∀ x, x ∈ rn.ends ↔ x ∈ clnt.net.ends ∧ ∀ server, clnt.ends.lookup server ≠ some x) ∧
      ∀ x, (∀ server, clnt.ends.lookup server ≠ some x) → rn.tables.enabled x = clnt.net.tables.enabled x := by
  have hmem : ∀ x, x ∉ clnt.ends.entries.map Sigma.snd ↔ ∀ server, clnt.ends.lookup server ≠ some x := by
    intro x
    constructor
    · intro hx server hlookup
      exact hx (List.mem_map.mpr ⟨⟨server, x⟩, mem_entries.mpr hlookup, rfl⟩)
    · intro hx hin
      obtain ⟨⟨server, _⟩, he, rfl⟩ := List.mem_map.mp hin
      exact hx server (mem_entries.mp he)
  have hnodup : (clnt.ends.entries.map Sigma.snd).Nodup := by
    apply List.Nodup.map_on _ (List.NodupKeys.nodup clnt.ends.nodupKeys)
    rintro ⟨s, x⟩ he ⟨s', x'⟩ he' heq
    obtain rfl : x = x' := heq
    rw [clnt.distinct s s' x (mem_entries.mp he) (mem_entries.mp he')]
  obtain ⟨rn, hremove, hends, henabled⟩ :=
    deleteEach_spec clnt.net (fun e he => clnt.known e.1 e.2 (mem_entries.mp he)) hnodup
  refine ⟨rn, hremove, fun x => ?_, fun x hx => henabled x ((hmem x).mpr hx)⟩
  rw [hends x, hmem x]

end Remove

end Tester
end DistributedLabs
