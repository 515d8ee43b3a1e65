import DistributedLabs.LabRpc.Network
import Mathlib.Data.List.ProdSigma
import Mathlib.Data.List.FinRange

/-!
# `Tester.Group` — a group of servers and the ends between them

`tester1/group.go` and `tester1/srv.go`: the `n` servers of a group, each with an end of the network to every
server, its own included. Whether an end is enabled is kept by the network, under the name of the end; whether a
server is connected is kept by the group. `connect` and `disconnect` bring the one in line with the other.

The names come from `Randstring` and may be any. `MakeEnd` is fatal for a name that there is already (`none`), so
the ends of a group have names of their own; a `ServerGrp` carries that. The process that runs a server and what
it has saved are left out: they do not change the tables, apart from the name under which the network finds the
server. `endNames` is never `nil`, since every server comes from `makeServer`.

Since names are distinct, setting an end under its name is setting it for its two servers (`enable_link`). From
there on the ends are a relation between servers, `link`, and each operation has one lemma that says what it does
to this relation; names do not occur in the modules that follow.
-/

namespace DistributedLabs
namespace Tester

open LabRpc

abbrev Tgid := Int

def serverName (gid : Tgid) (i : Nat) : String := "server-" ++ toString gid ++ "-" ++ toString i

/-! ## Making ends -/

/-- The `Network` as the tester uses it: its tables, and the names of the ends it has. -/
structure Net where
  ends : List String
  tables : Tables String

/-- A change of the tables. -/
def Net.apply (rn : Net) (a : TableAction String) : Net := { rn with tables := rn.tables.apply a }

/-- `MakeEnd`, which is fatal for a name that there is. -/
def Net.makeEnd (rn : Net) (endname : String) : Option Net :=
  if endname ∈ rn.ends then none
  else some ⟨endname :: rn.ends, (rn.tables.apply (.enable endname false)).apply (.connect endname none)⟩

/-- `Server`: the names of its ends. -/
structure Server (n : Nat) where
  endNames : Fin n → String

/-- The loop of `makeServer`. -/
def makeEnds {n : Nat} (gid : Tgid) (endNames : Fin n → String) : List (Fin n) → Net → Option Net
  | [], rn => some rn
  | j :: js, rn =>
      (rn.makeEnd (endNames j)).bind (fun rn =>
        makeEnds gid endNames js (rn.apply (.connect (endNames j) (some (serverName gid j)))))

def makeServer {n : Nat} (net : Net) (gid : Tgid) (endNames : Fin n → String) : Option (Net × Server n) :=
  (makeEnds gid endNames (List.finRange n) net).map (fun net => (net, ⟨endNames⟩))

/-- The loop of `makeSrvGrp`. -/
def makeServers {n : Nat} (gid : Tgid) (endNames : Fin n → Fin n → String) : List (Fin n) → Net → Option Net
  | [], rn => some rn
  | i :: is, rn => (makeServer rn gid (endNames i)).bind (fun made => makeServers gid endNames is made.1)

/-- The ends named in the list have been made, one by one. -/
structure MadeEnds (rn : Net) (names : List String) (rn' : Net) : Prop where
  fresh : ∀ x ∈ names, x ∉ rn.ends
  nodup : names.Nodup
  ends : ∀ x, x ∈ rn'.ends ↔ x ∈ rn.ends ∨ x ∈ names
  enabled : ∀ x, rn'.tables.enabled x = if x ∈ names then false else rn.tables.enabled x

section Making

variable {n : Nat} {rn rn' rn'' : Net} {gid : Tgid}

theorem MadeEnds.refl : MadeEnds rn [] rn := by
  refine ⟨?_, List.nodup_nil, ?_, ?_⟩ <;> simp

theorem MadeEnds.trans {names names' : List String} (h : MadeEnds rn names rn') (h' : MadeEnds rn' names' rn'') :
    MadeEnds rn (names ++ names') rn'' := by
  constructor
  · intro x hx hin
    rcases List.mem_append.mp hx with hx | hx
    · exact h.fresh x hx hin
    · exact h'.fresh x hx ((h.ends x).mpr (Or.inl hin))
  · refine List.nodup_append'.mpr ⟨h.nodup, h'.nodup, ?_⟩
    intro x hx hx'
    exact h'.fresh x hx' ((h.ends x).mpr (Or.inr hx))
  · intro x
    rw [h'.ends, h.ends, List.mem_append, or_assoc]
  · intro x
    rw [h'.enabled, h.enabled]
    by_cases hx : x ∈ names <;> by_cases hx' : x ∈ names' <;> simp [hx, hx']

theorem makeEnd_made {endname : String} (h : rn.makeEnd endname = some rn') (servername : Option String) :
    MadeEnds rn [endname] (rn'.apply (.connect endname servername)) := by
  unfold Net.makeEnd at h
  split at h
  · cases h
  · rename_i hnew
    cases h
    refine ⟨?_, List.nodup_singleton _, ?_, ?_⟩
    · intro x hx
      rw [List.mem_singleton.mp hx]
      exact hnew
    · intro x
      show x ∈ endname :: rn.ends ↔ _
      rw [List.mem_cons, List.mem_singleton, or_comm]
    · intro x
      show Function.update rn.tables.enabled endname false x = _
      rw [Function.update_apply]
      simp only [List.mem_singleton]

theorem makeEnds_made {endNames : Fin n → String} {js : List (Fin n)} (h : makeEnds gid endNames js rn = some rn') :
    MadeEnds rn (js.map endNames) rn' := by
  induction js generalizing rn with
  | nil =>
      cases h
      exact MadeEnds.refl
  | cons j js ih =>
      obtain ⟨mid, hmake, hrest⟩ := Option.bind_eq_some_iff.mp h
      exact (makeEnd_made hmake _).trans (ih hrest)

theorem makeServer_made {endNames : Fin n → String} {srv : Server n}
    (h : makeServer rn gid endNames = some (rn', srv)) :
    srv = ⟨endNames⟩ ∧ MadeEnds rn ((List.finRange n).map endNames) rn' := by
  obtain ⟨mid, hmake, heq⟩ := Option.map_eq_some_iff.mp h
  cases heq
  exact ⟨rfl, makeEnds_made hmake⟩

/-- The loop of `makeSrvGrp` makes the ends of all servers. -/
theorem makeServers_made {endNames : Fin n → Fin n → String} {is : List (Fin n)}
    (h : makeServers gid endNames is rn = some rn') :
    MadeEnds rn ((is.product (List.finRange n)).map (fun p => endNames p.1 p.2)) rn' := by
  induction is generalizing rn with
  | nil =>
      cases h
      exact MadeEnds.refl
  | cons i is ih =>
      obtain ⟨⟨mid, srv⟩, hmake, hrest⟩ := Option.bind_eq_some_iff.mp h
      have hfirst := (makeServer_made hmake).2
      have hall := hfirst.trans (ih hrest)
      have hnames : ((i :: is).product (List.finRange n)).map (fun p => endNames p.1 p.2)
          = (List.finRange n).map (endNames i)
            ++ (is.product (List.finRange n)).map (fun p => endNames p.1 p.2) := by
        simp [List.product, Function.comp_def]
      rw [hnames]
      exact hall

end Making

/-! ## The group -/

/-- `ServerGrp`: its servers, and which of them are connected. -/
structure ServerGrp (n : Nat) where
  net : Net
  gid : Tgid
  srvs : Fin n → Server n
  connected : Fin n → Bool
  known : ∀ i j, (srvs i).endNames j ∈ net.ends
  distinct : ∀ i j i' j', (srvs i).endNames j = (srvs i').endNames j' → i = i' ∧ j = j'

/-- The names that `makeSrvGrp` uses are distinct, or it would not have got past `MakeEnd`. -/
theorem names_distinct {n : Nat} {endNames : Fin n → Fin n → String}
    (h : (((List.finRange n).product (List.finRange n)).map (fun p => endNames p.1 p.2)).Nodup)
    (i j i' j' : Fin n) (heq : endNames i j = endNames i' j') : i = i' ∧ j = j' := by
  have hmem : ∀ p : Fin n × Fin n, p ∈ (List.finRange n).product (List.finRange n) :=
    fun p => List.mem_product.mpr ⟨List.mem_finRange _, List.mem_finRange _⟩
  have hpair := List.inj_on_of_nodup_map h (hmem (i, j)) (hmem (i', j')) heq
  exact Prod.mk.inj hpair

/-- `makeSrvGrp`: no server is connected yet. -/
def makeSrvGrp {n : Nat} (net : Net) (gid : Tgid) (endNames : Fin n → Fin n → String) : Option (ServerGrp n) :=
  match h : makeServers gid endNames (List.finRange n) net with
  | none => none
  | some net' =>
      some {
        net := net'
        gid := gid
        srvs := fun i => ⟨endNames i⟩
        connected := fun _ => false
        known := fun i j => ((makeServers_made h).ends _).mpr (Or.inr (List.mem_map.mpr
          ⟨(i, j), List.mem_product.mpr ⟨List.mem_finRange i, List.mem_finRange j⟩, rfl⟩))
        distinct := names_distinct (makeServers_made h).nodup }

section Group

variable {n : Nat}

def ServerGrp.all (_ : ServerGrp n) : List (Fin n) := List.finRange n

def ServerGrp.isConnected (sg : ServerGrp n) (i : Fin n) : Bool := sg.connected i

/-- Whether the end from server `i` to server `j` is enabled. -/
def ServerGrp.link (sg : ServerGrp n) (i j : Fin n) : Bool :=
  sg.net.tables.enabled ((sg.srvs i).endNames j)

/-- A change of the network's tables. -/
def ServerGrp.apply (sg : ServerGrp n) (a : TableAction String) : ServerGrp n :=
  { sg with net := sg.net.apply a }

/-- `Enable` for the end between the two servers of the pair. -/
def ServerGrp.enable (sg : ServerGrp n) (p : Fin n × Fin n) (enabled : Bool) : ServerGrp n :=
  sg.apply (.enable ((sg.srvs p.1).endNames p.2) enabled)

/-- A loop over a list of servers that enables or disables an end for each of them that passes the test. -/
def ServerGrp.enableEach (sg : ServerGrp n) (l : List (Fin n)) (test : ServerGrp n → Fin n → Bool)
    (pair : Fin n → Fin n × Fin n) (enabled : Bool) : ServerGrp n :=
  l.foldl (fun sg j => if test sg j then sg.enable (pair j) enabled else sg) sg

/-- `Server.connect` of server `i`. -/
def ServerGrp.connectOut (sg : ServerGrp n) (i : Fin n) (peers : List (Fin n)) : ServerGrp n :=
  sg.enableEach peers ServerGrp.isConnected (fun j => (i, j)) true

/-- The loop of `connect` over the incoming ends. -/
def ServerGrp.connectIn (sg : ServerGrp n) (i : Fin n) (peers : List (Fin n)) : ServerGrp n :=
  sg.enableEach peers ServerGrp.isConnected (fun j => (j, i)) true

/-- `connect`: the server is flagged, then its ends to and from connected peers are enabled. -/
def ServerGrp.connect (sg : ServerGrp n) (i : Fin n) (peers : List (Fin n)) : ServerGrp n :=
  ({ sg with connected := Function.update sg.connected i true }.connectOut i peers).connectIn i peers

/-- `Server.disconnect` of server `i`. -/
def ServerGrp.disconnectOut (sg : ServerGrp n) (i : Fin n) (peers : List (Fin n)) : ServerGrp n :=
  sg.enableEach peers (fun _ _ => true) (fun j => (i, j)) false

/-- The loop of `disconnect` over the incoming ends. -/
def ServerGrp.disconnectIn (sg : ServerGrp n) (i : Fin n) (peers : List (Fin n)) : ServerGrp n :=
  sg.enableEach peers (fun _ _ => true) (fun j => (j, i)) false

/-- `disconnect`: the server is no longer flagged, and its ends to and from the peers are disabled. -/
def ServerGrp.disconnect (sg : ServerGrp n) (i : Fin n) (peers : List (Fin n)) : ServerGrp n :=
  ({ sg with connected := Function.update sg.connected i false }.disconnectOut i peers).disconnectIn i peers

def ServerGrp.connectOne (sg : ServerGrp n) (i : Fin n) : ServerGrp n := sg.connect i sg.all

def ServerGrp.connectAll (sg : ServerGrp n) : ServerGrp n := sg.all.foldl ServerGrp.connectOne sg

def ServerGrp.disconnectAll (sg : ServerGrp n) (i : Fin n) : ServerGrp n := sg.disconnect i sg.all

/-- `ShutdownServer`, as far as the network sees it. -/
def ServerGrp.shutdownServer (sg : ServerGrp n) (i : Fin n) : ServerGrp n :=
  (sg.disconnect i sg.all).apply (.deleteServer (serverName sg.gid i))

section Replace

variable {sg : ServerGrp n} {endNames : Fin n → String} {rn : Net}

theorem replaced_known (h : MadeEnds sg.net ((List.finRange n).map endNames) rn) (i a b : Fin n) :
    (Function.update sg.srvs i ⟨endNames⟩ a).endNames b ∈ rn.ends := by
  rw [h.ends]
  by_cases ha : a = i
  · rw [ha, Function.update_self]
    exact Or.inr (List.mem_map_of_mem (List.mem_finRange b))
  · rw [Function.update_of_ne ha]
    exact Or.inl (sg.known a b)

/-- A new name is not among the old ones. -/
theorem replaced_distinct (h : MadeEnds sg.net ((List.finRange n).map endNames) rn) (i a b a' b' : Fin n)
    (heq : (Function.update sg.srvs i ⟨endNames⟩ a).endNames b
      = (Function.update sg.srvs i ⟨endNames⟩ a').endNames b') : a = a' ∧ b = b' := by
  have hfresh : ∀ j a b, endNames j ≠ (sg.srvs a).endNames b := by
    intro j a b hclash
    exact h.fresh _ (List.mem_map_of_mem (List.mem_finRange j)) (hclash ▸ sg.known a b)
  by_cases ha : a = i <;> by_cases ha' : a' = i
  · subst ha ha'
    rw [Function.update_self] at heq
    exact ⟨rfl, List.inj_on_of_nodup_map h.nodup (List.mem_finRange b) (List.mem_finRange b') heq⟩
  · rw [ha, Function.update_self, Function.update_of_ne ha'] at heq
    exact absurd heq (hfresh _ _ _)
  · rw [ha', Function.update_self, Function.update_of_ne ha] at heq
    exact absurd heq.symm (hfresh _ _ _)
  · rw [Function.update_of_ne ha, Function.update_of_ne ha'] at heq
    exact sg.distinct a b a' b' heq

end Replace

/-- The ends of server `i` are replaced by new ones: `sg.srvs[i] = sg.srvs[i].startServer(sg.gid)`. -/
def ServerGrp.replaceServer (sg : ServerGrp n) (i : Fin n) (endNames : Fin n → String) : Option (ServerGrp n) :=
  match h : makeServer sg.net sg.gid endNames with
  | none => none
  | some (net, srv) =>
      some { sg with
        net := net
        srvs := Function.update sg.srvs i srv
        known := (makeServer_made h).1 ▸ replaced_known (makeServer_made h).2 i
        distinct := (makeServer_made h).1 ▸ replaced_distinct (makeServer_made h).2 i }

/-- `StartServer`. `runDaemon` may fail, and then the server is not added to the network. -/
def ServerGrp.startServer (sg : ServerGrp n) (i : Fin n) (endNames : Fin n → String) (labsrv : Option ServerId) :
    Option (ServerGrp n) :=
  (sg.replaceServer i endNames).map (fun sg =>
    match labsrv with
    | none => sg
    | some rs => sg.apply (.addServer (serverName sg.gid i) rs))

def ServerGrp.partition (sg : ServerGrp n) (p1 p2 : List (Fin n)) : ServerGrp n :=
  let sg := p1.foldl (fun sg i => (sg.disconnect i p2).connect i p1) sg
  p2.foldl (fun sg i => (sg.disconnect i p1).connect i p2) sg

/-! ## What the operations do to the flags and the ends -/

variable {sg sg' : ServerGrp n} {i a b : Fin n} {peers : List (Fin n)}

theorem enable_link (p : Fin n × Fin n) (enabled : Bool) :
    (sg.enable p enabled).link a b = if p = (a, b) then enabled else sg.link a b := by
  show Function.update sg.net.tables.enabled _ enabled ((sg.srvs a).endNames b) = _
  by_cases hp : p = (a, b)
  · rw [if_pos hp, hp, Function.update_self]
  · rw [if_neg hp, Function.update_of_ne]
    · rfl
    · intro heq
      obtain ⟨ha, hb⟩ := sg.distinct _ _ _ _ heq
      exact hp (Prod.ext ha.symm hb.symm)

section EnableEach

variable {test : ServerGrp n → Fin n → Bool} {pair : Fin n → Fin n × Fin n} {enabled : Bool}

theorem enableEach_connected (sg : ServerGrp n) (l : List (Fin n)) :
    (sg.enableEach l test pair enabled).connected = sg.connected := by
  induction l generalizing sg with
  | nil => rfl
  | cons j l ih =>
      refine (ih _).trans ?_
      dsimp only
      split <;> rfl

/-- The test looks at the flags, which the loop leaves alone. -/
theorem enableEach_link (htest : ∀ sg' : ServerGrp n, sg'.connected = sg.connected → test sg' = test sg)
    (l : List (Fin n)) :
    (sg.enableEach l test pair enabled).link a b =
      if ∃ j ∈ l, test sg j = true ∧ pair j = (a, b) then enabled else sg.link a b := by
  induction l generalizing sg with
  | nil => simp [ServerGrp.enableEach]
  | cons j l ih =>
      have hunfold : sg.enableEach (j :: l) test pair enabled =
          (if test sg j then sg.enable (pair j) enabled else sg).enableEach l test pair enabled := rfl
      rw [hunfold]
      by_cases hj : test sg j = true
      · have hsame : test (sg.enable (pair j) enabled) = test sg := htest _ rfl
        have hnext : ∀ sg' : ServerGrp n, sg'.connected = (sg.enable (pair j) enabled).connected →
            test sg' = test (sg.enable (pair j) enabled) := by
          intro sg' h
          rw [hsame]
          exact htest sg' h
        rw [if_pos hj, ih hnext, hsame, enable_link]
        by_cases hp : pair j = (a, b) <;> simp [hj, hp]
      · rw [if_neg hj, ih htest]
        simp [hj]

theorem enableEach_true_link
    (htest : ∀ sg' : ServerGrp n, sg'.connected = sg.connected → test sg' = test sg) (l : List (Fin n)) :
    (sg.enableEach l test pair true).link a b = true ↔
      sg.link a b = true ∨ ∃ j ∈ l, test sg j = true ∧ pair j = (a, b) := by
  rw [enableEach_link htest, ite_eq_left_iff]
  exact or_iff_not_imp_left.symm.trans or_comm

theorem enableEach_false_link
    (htest : ∀ sg' : ServerGrp n, sg'.connected = sg.connected → test sg' = test sg) (l : List (Fin n)) :
    (sg.enableEach l test pair false).link a b = true ↔
      sg.link a b = true ∧ ¬ ∃ j ∈ l, test sg j = true ∧ pair j = (a, b) := by
  rw [enableEach_link htest]
  split
  case isTrue hex => exact ⟨fun h => absurd h Bool.false_ne_true, fun h => absurd hex h.2⟩
  case isFalse hno => exact ⟨fun h => ⟨h, hno⟩, fun h => h.1⟩

end EnableEach

theorem connect_connected : (sg.connect i peers).connected = Function.update sg.connected i true :=
  (enableEach_connected _ _).trans (enableEach_connected _ _)

theorem disconnect_connected : (sg.disconnect i peers).connected = Function.update sg.connected i false :=
  (enableEach_connected _ _).trans (enableEach_connected _ _)

theorem isConnected_congr (h : sg'.connected = sg.connected) : sg'.isConnected = sg.isConnected := by
  funext j
  exact congrFun h j

/-- The outgoing end of server `i` that a loop comes to. -/
theorem exists_out_iff {p : Fin n → Bool} :
    (∃ j ∈ peers, p j = true ∧ (i, j) = (a, b)) ↔ a = i ∧ b ∈ peers ∧ p b = true := by
  constructor
  · rintro ⟨j, hj, hp, heq⟩
    cases heq
    exact ⟨rfl, hj, hp⟩
  · rintro ⟨rfl, hb, hp⟩
    exact ⟨b, hb, hp, rfl⟩

theorem exists_in_iff {p : Fin n → Bool} :
    (∃ j ∈ peers, p j = true ∧ (j, i) = (a, b)) ↔ b = i ∧ a ∈ peers ∧ p a = true := by
  constructor
  · rintro ⟨j, hj, hp, heq⟩
    cases heq
    exact ⟨rfl, hj, hp⟩
  · rintro ⟨rfl, ha, hp⟩
    exact ⟨a, ha, hp, rfl⟩

theorem connectOut_link :
    (sg.connectOut i peers).link a b = true ↔
      sg.link a b = true ∨ a = i ∧ b ∈ peers ∧ sg.connected b = true := by
  unfold ServerGrp.connectOut
  rw [enableEach_true_link (fun _ h => isConnected_congr h), exists_out_iff, ServerGrp.isConnected]

theorem connectIn_link :
    (sg.connectIn i peers).link a b = true ↔
      sg.link a b = true ∨ b = i ∧ a ∈ peers ∧ sg.connected a = true := by
  unfold ServerGrp.connectIn
  rw [enableEach_true_link (fun _ h => isConnected_congr h), exists_in_iff, ServerGrp.isConnected]

theorem disconnectOut_link :
    (sg.disconnectOut i peers).link a b = true ↔ sg.link a b = true ∧ ¬ (a = i ∧ b ∈ peers) := by
  unfold ServerGrp.disconnectOut
  rw [enableEach_false_link (fun _ _ => rfl), exists_out_iff, and_iff_left (rfl : true = true)]

theorem disconnectIn_link :
    (sg.disconnectIn i peers).link a b = true ↔ sg.link a b = true ∧ ¬ (b = i ∧ a ∈ peers) := by
  unfold ServerGrp.disconnectIn
  rw [enableEach_false_link (fun _ _ => rfl), exists_in_iff, and_iff_left (rfl : true = true)]

theorem connect_link :
    (sg.connect i peers).link a b = true ↔ sg.link a b = true ∨
      (a = i ∧ b ∈ peers ∧ Function.update sg.connected i true b = true) ∨
      (b = i ∧ a ∈ peers ∧ Function.update sg.connected i true a = true) := by
  unfold ServerGrp.connect
  rw [connectIn_link, connectOut_link, or_assoc, ServerGrp.connectOut, enableEach_connected]
  rfl

theorem disconnect_link :
    (sg.disconnect i peers).link a b = true ↔
      sg.link a b = true ∧ ¬ (a = i ∧ b ∈ peers) ∧ ¬ (b = i ∧ a ∈ peers) := by
  unfold ServerGrp.disconnect
  rw [disconnectIn_link, disconnectOut_link, and_assoc]
  rfl

/-- The outgoing ends are new, hence disabled; the rest stays. -/
theorem replaceServer_spec {endNames : Fin n → String} (h : sg.replaceServer i endNames = some sg') :
    sg'.connected = sg.connected ∧ ∀ a b, sg'.link a b = if a = i then false else sg.link a b := by
  unfold ServerGrp.replaceServer at h
  split at h
  · cases h
  · rename_i net srv hmake
    cases h
    obtain ⟨rfl, hmade⟩ := makeServer_made hmake
    refine ⟨rfl, fun a b => ?_⟩
    show net.tables.enabled ((Function.update sg.srvs i ⟨endNames⟩ a).endNames b) = _
    rw [hmade.enabled]
    by_cases ha : a = i
    · rw [ha, Function.update_self, if_pos (List.mem_map_of_mem (List.mem_finRange b)), if_pos rfl]
    · rw [Function.update_of_ne ha, if_neg ha, if_neg]
      · rfl
      · exact fun hin => hmade.fresh _ hin (sg.known a b)

theorem startServer_spec {endNames : Fin n → String} {labsrv : Option ServerId}
    (h : sg.startServer i endNames labsrv = some sg') :
    sg'.connected = sg.connected ∧ ∀ a b, sg'.link a b = if a = i then false else sg.link a b := by
  obtain ⟨mid, hreplace, rfl⟩ := Option.map_eq_some_iff.mp h
  obtain ⟨hconn, hlink⟩ := replaceServer_spec hreplace
  cases labsrv with
  | none => exact ⟨hconn, hlink⟩
  | some rs => exact ⟨hconn, hlink⟩

theorem makeSrvGrp_spec {net : Net} {gid : Tgid} {endNames : Fin n → Fin n → String}
    (h : makeSrvGrp net gid endNames = some sg) : ∀ i j, sg.connected i = false ∧ sg.link i j = false := by
  unfold makeSrvGrp at h
  split at h
  · cases h
  · rename_i net' hmake
    cases h
    refine fun i j => ⟨rfl, ?_⟩
    show net'.tables.enabled (endNames i j) = false
    rw [(makeServers_made hmake).enabled, if_pos]
    exact List.mem_map.mpr ⟨(i, j), List.mem_product.mpr ⟨List.mem_finRange i, List.mem_finRange j⟩, rfl⟩

end Group

end Tester
end DistributedLabs
