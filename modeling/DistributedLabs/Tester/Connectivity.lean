import DistributedLabs.Tester.Group

/-!
# `Tester.Connectivity` — which servers of a group reach each other

The flag `connected` of a server is a summary of the ends of the network. It is `Precise` as long as servers are
connected, disconnected, shut down and started one at a time: an end is enabled if both its servers are flagged,
and only then. `Partition` gives that up: it leaves every server flagged and enables the ends within each of the
two lists.

For the operations on one server the invariant is `Precise`, with one lemma for each operation. For `Partition` it
is `MovedInto`, which says what the servers moved so far have done to the ends: a round of a loop connects a server
to those of its list that are flagged by then, so of two servers in a list the later one makes the ends between
them. `enabled_iff_connected` and `partition_exact` are the two results.
-/

namespace DistributedLabs
namespace Tester

open Lib LabRpc

/-! ## One server at a time -/

/-- The operations on one server. -/
inductive Op (n : Nat) where
  | connectOne (i : Fin n)
  | disconnectAll (i : Fin n)
  | shutdownServer (i : Fin n)
  | startServer (i : Fin n) (endNames : Fin n → String) (labsrv : Option ServerId)

/-- A server is started when it is not connected: `ShutdownServer` comes first. -/
def ServerGrp.next {n : Nat} (sg : ServerGrp n) : Op n → Option (ServerGrp n)
  | .connectOne i => some (sg.connectOne i)
  | .disconnectAll i => some (sg.disconnectAll i)
  | .shutdownServer i => some (sg.shutdownServer i)
  | .startServer i endNames labsrv =>
      if sg.isConnected i then none else sg.startServer i endNames labsrv

/-- A group in the hands of a test. -/
def operated {n : Nat} (sg : ServerGrp n) : LTS (ServerGrp n) (Op n) where
  init := sg
  step := fun sg op sg' => sg.next op = some sg'

theorem operated_computedBy {n : Nat} (sg : ServerGrp n) : (operated sg).ComputedBy ServerGrp.next :=
  fun _ _ _ => Iff.rfl

section Precise

variable {n : Nat} {sg sg' : ServerGrp n} {i : Fin n}

/-- An end is enabled if both its servers are connected, and only then. -/
def ServerGrp.Precise (sg : ServerGrp n) : Prop :=
  ∀ a b, sg.link a b = true ↔ sg.connected a = true ∧ sg.connected b = true

theorem makeSrvGrp_precise {net : Net} {gid : Tgid} {endNames : Fin n → Fin n → String}
    (h : makeSrvGrp net gid endNames = some sg) : sg.Precise := by
  intro a b
  obtain ⟨hconn, hlink⟩ := makeSrvGrp_spec h a b
  rw [hconn, hlink]
  simp

/-- The new ends are to and from the servers that are connected by then, and `i` is one of them. -/
theorem ServerGrp.Precise.connectOne (h : sg.Precise) : (sg.connectOne i).Precise := by
  intro a b
  have hall : ∀ j, j ∈ sg.all := List.mem_finRange
  have hmono : ∀ {j}, sg.connected j = true → Function.update sg.connected i true j = true := by
    intro j hj
    by_cases hji : j = i
    · rw [hji, Function.update_self]
    · rw [Function.update_of_ne hji, hj]
  unfold ServerGrp.connectOne
  rw [connect_link, connect_connected, h a b]
  constructor
  · rintro (⟨ha, hb⟩ | ⟨rfl, _, hb⟩ | ⟨rfl, _, ha⟩)
    · exact ⟨hmono ha, hmono hb⟩
    · exact ⟨Function.update_self .., hb⟩
    · exact ⟨ha, Function.update_self ..⟩
  · rintro ⟨ha, hb⟩
    by_cases hai : a = i
    · exact Or.inr (Or.inl ⟨hai, hall b, hb⟩)
    by_cases hbi : b = i
    · exact Or.inr (Or.inr ⟨hbi, hall a, ha⟩)
    · rw [Function.update_of_ne hai] at ha
      rw [Function.update_of_ne hbi] at hb
      exact Or.inl ⟨ha, hb⟩

/-- A disconnected server has no enabled ends left. -/
theorem ServerGrp.Precise.disconnectAll (h : sg.Precise) : (sg.disconnectAll i).Precise := by
  intro a b
  have hall : ∀ j, j ∈ sg.all := List.mem_finRange
  unfold ServerGrp.disconnectAll
  rw [disconnect_link, disconnect_connected, h a b]
  constructor
  · rintro ⟨⟨ha, hb⟩, hout, hin⟩
    have hai : a ≠ i := fun heq => hout ⟨heq, hall b⟩
    have hbi : b ≠ i := fun heq => hin ⟨heq, hall a⟩
    rw [Function.update_of_ne hai, Function.update_of_ne hbi]
    exact ⟨ha, hb⟩
  · rintro ⟨ha, hb⟩
    have hne : ∀ {j}, Function.update sg.connected i false j = true → j ≠ i := by
      rintro j hj rfl
      rw [Function.update_self] at hj
      cases hj
    have hai := hne ha
    have hbi := hne hb
    rw [Function.update_of_ne hai] at ha
    rw [Function.update_of_ne hbi] at hb
    exact ⟨⟨ha, hb⟩, fun hout => hai hout.1, fun hin => hbi hin.1⟩

theorem ServerGrp.Precise.shutdownServer (h : sg.Precise) : (sg.shutdownServer i).Precise :=
  h.disconnectAll (i := i)

/-- The servers of a list are connected one after another. -/
theorem ServerGrp.Precise.connectEach (h : sg.Precise) (l : List (Fin n)) :
    (l.foldl ServerGrp.connectOne sg).Precise ∧
      ∀ a, sg.connected a = true ∨ a ∈ l → (l.foldl ServerGrp.connectOne sg).connected a = true := by
  induction l generalizing sg with
  | nil => exact ⟨h, fun a ha => ha.resolve_right List.not_mem_nil⟩
  | cons i l ih =>
      obtain ⟨hprecise, hconn⟩ := ih (h.connectOne (i := i))
      refine ⟨hprecise, fun a ha => hconn a ?_⟩
      unfold ServerGrp.connectOne
      rw [connect_connected]
      by_cases hai : a = i
      · rw [hai, Function.update_self]
        exact Or.inl rfl
      · rw [Function.update_of_ne hai]
        exact ha.imp_right (fun hmem => (List.mem_cons.mp hmem).resolve_left hai)

/-- `ConnectAll` leaves no end disabled. -/
theorem connectAll_link (h : sg.Precise) (a b : Fin n) : sg.connectAll.link a b = true := by
  obtain ⟨hprecise, hconn⟩ := h.connectEach sg.all
  apply (hprecise a b).mpr
  exact ⟨hconn a (Or.inr (List.mem_finRange a)), hconn b (Or.inr (List.mem_finRange b))⟩

/-- The new ends are disabled, as those they replace. -/
theorem ServerGrp.Precise.startServer {endNames : Fin n → String} {labsrv : Option ServerId} (h : sg.Precise)
    (hi : sg.connected i = false) (hstart : sg.startServer i endNames labsrv = some sg') : sg'.Precise := by
  obtain ⟨hconn, hlink⟩ := startServer_spec hstart
  intro a b
  rw [hconn, hlink]
  by_cases ha : a = i
  · rw [if_pos ha, ha, hi]
    simp
  · rw [if_neg ha]
    exact h a b

/-- Every operation on one server keeps the flags precise. -/
theorem ServerGrp.Precise.next {op : Op n} (h : sg.Precise) (hop : sg.next op = some sg') : sg'.Precise := by
  cases op with
  | connectOne i =>
      obtain rfl := Option.some.inj hop
      exact h.connectOne
  | disconnectAll i =>
      obtain rfl := Option.some.inj hop
      exact h.disconnectAll
  | shutdownServer i =>
      obtain rfl := Option.some.inj hop
      exact h.shutdownServer
  | startServer i endNames labsrv =>
      simp only [ServerGrp.next] at hop
      split at hop
      · cases hop
      · rename_i hi
        exact h.startServer (Bool.eq_false_iff.mpr hi) hop

/-- **The flags tell which ends are enabled**, whatever is done to a group one server at a time. -/
theorem enabled_iff_connected {net : Net} {gid : Tgid} {endNames : Fin n → Fin n → String} {sg₀ : ServerGrp n}
    (hmake : makeSrvGrp net gid endNames = some sg₀) {ops : List (Op n)} (h : Reaches (operated sg₀) ops sg)
    (i j : Fin n) :
    sg.net.tables.enabled ((sg.srvs i).endNames j) = true ↔
      sg.connected i = true ∧ sg.connected j = true := by
  have hprecise : sg.Precise :=
    Reaches.invariant (P := fun _ sg => ServerGrp.Precise sg) (makeSrvGrp_precise hmake)
      (fun _ _ _ _ _ hsg hstep => hsg.next hstep) h
  exact hprecise i j

end Precise

/-- Two servers on a network that has no other ends. -/
def emptyNet : Net :=
  { ends := []
    tables := { reliable := true, longReordering := false, enabled := fun _ => false,
                connections := fun _ => none, servers := fun _ => none, done := false } }

/-- The names of their ends. -/
def twoNames (i j : Fin 2) : String :=
  match i.val, j.val with
  | 0, 0 => "a"
  | 0, _ => "b"
  | _, 0 => "c"
  | _, _ => "d"

/-- The two servers. -/
def twoServers : ServerGrp 2 := (makeSrvGrp emptyNet 0 twoNames).get (by decide +kernel)

theorem makeSrvGrp_twoServers : makeSrvGrp emptyNet 0 twoNames = some twoServers := (Option.some_get _).symm

/-- Server 1 is shut down and started again; its new ends are disabled until it is connected. -/
theorem enabled_iff_connected_restart :
    ∃ sg, Reaches (operated twoServers)
        [.connectOne 0, .connectOne 1, .shutdownServer 1,
          .startServer 1 (fun j => if j.val = 0 then "e" else "f") (some 7)] sg ∧
      sg.connected 0 = true ∧ (sg.srvs 1).endNames 0 = "e" ∧ sg.net.tables.enabled "e" = false := by
  have hrun : ∃ sg, Reaches (operated twoServers)
        [.connectOne 0, .connectOne 1, .shutdownServer 1,
          .startServer 1 (fun j => if j.val = 0 then "e" else "f") (some 7)] sg ∧
      decide (sg.connected 0 = true ∧ sg.connected 1 = false ∧ (sg.srvs 1).endNames 0 = "e") = true :=
    exists_reaches_with (operated_computedBy _) _ (by decide +kernel)
  obtain ⟨sg, hreach, hsg⟩ := hrun
  obtain ⟨h0, h1, hname⟩ := of_decide_eq_true hsg
  have hends := enabled_iff_connected makeSrvGrp_twoServers hreach 1 0
  rw [hname, h0, h1] at hends
  exact ⟨sg, hreach, h0, hname, Bool.eq_false_iff.mpr (fun hen => Bool.false_ne_true (hends.mp hen).1)⟩

/-! ## Two lists of servers -/

section Partition

variable {n : Nat} {p q : List (Fin n)}

/-- One round of a loop of `Partition`. -/
def ServerGrp.moveInto (p q : List (Fin n)) (sg : ServerGrp n) (i : Fin n) : ServerGrp n :=
  (sg.disconnect i q).connect i p

/-- After the servers in `l` have been moved into `p`, away from `q`. What is outside `p` is as it was. -/
structure MovedInto (p q l : List (Fin n)) (sg₀ sg : ServerGrp n) : Prop where
  flagged : ∀ a ∈ l, sg.connected a = true
  linked : ∀ a ∈ l, ∀ b ∈ l, sg.link a b = true
  apart : ∀ a ∈ l, ∀ b ∈ q, ¬ sg.link a b = true ∧ ¬ sg.link b a = true
  flagsKept : ∀ a, a ∉ p → sg.connected a = sg₀.connected a
  linksKept : ∀ a b, a ∉ p → b ∉ p → (sg.link a b = true ↔ sg₀.link a b = true)

theorem moveInto_connected {sg : ServerGrp n} {i : Fin n} :
    (sg.moveInto p q i).connected = Function.update sg.connected i true := by
  unfold ServerGrp.moveInto
  rw [connect_connected, disconnect_connected, Function.update_idem]

theorem moveInto_link {sg : ServerGrp n} {i a b : Fin n} :
    (sg.moveInto p q i).link a b = true ↔
      (sg.link a b = true ∧ ¬ (a = i ∧ b ∈ q) ∧ ¬ (b = i ∧ a ∈ q)) ∨
      (a = i ∧ b ∈ p ∧ Function.update sg.connected i true b = true) ∨
      (b = i ∧ a ∈ p ∧ Function.update sg.connected i true a = true) := by
  unfold ServerGrp.moveInto
  rw [connect_link, disconnect_link, disconnect_connected, Function.update_idem]

theorem MovedInto.step {l : List (Fin n)} {sg₀ sg : ServerGrp n} {i : Fin n} (h : MovedInto p q l sg₀ sg)
    (hdisj : List.Disjoint p q) (hl : ∀ a ∈ l, a ∈ p) (hi : i ∈ p) :
    MovedInto p q (l ++ [i]) sg₀ (sg.moveInto p q i) := by
  have hout : ∀ {a}, a ∈ p → a ∉ q := fun ha hq => hdisj ha hq
  have hflag : ∀ a ∈ l ++ [i], Function.update sg.connected i true a = true := by
    intro a ha
    by_cases hai : a = i
    · rw [hai, Function.update_self]
    · rw [Function.update_of_ne hai]
      apply h.flagged
      simpa [hai] using ha
  have hin : ∀ a ∈ l ++ [i], a ∈ p := by
    intro a ha
    rcases List.mem_append.mp ha with ha | ha
    · exact hl a ha
    · exact (List.mem_singleton.mp ha) ▸ hi
  constructor
  · intro a ha
    rw [moveInto_connected]
    exact hflag a ha
  · intro a ha b hb
    rw [moveInto_link]
    -- an end of `i` is enabled now; one between two earlier servers has not been touched
    by_cases hai : a = i
    · exact Or.inr (Or.inl ⟨hai, hin b hb, hflag b hb⟩)
    by_cases hbi : b = i
    · exact Or.inr (Or.inr ⟨hbi, hin a ha, hflag a ha⟩)
    · have ha' : a ∈ l := by simpa [hai] using ha
      have hb' : b ∈ l := by simpa [hbi] using hb
      exact Or.inl ⟨h.linked a ha' b hb', fun hx => hai hx.1, fun hx => hbi hx.1⟩
  · intro a ha b hb
    -- nothing is enabled across: the round disables the ends of `i` to `q`, and enables some to `p` only
    have hold : a ≠ i → ¬ sg.link a b = true ∧ ¬ sg.link b a = true := by
      intro hai
      exact h.apart a (by simpa [hai] using ha) b hb
    have hbp : b ∉ p := fun hbp => hout hbp hb
    have hbi : b ≠ i := fun heq => hbp (heq ▸ hi)
    rw [moveInto_link, moveInto_link]
    constructor
    · rintro (⟨hlink, hno, _⟩ | ⟨_, hbad, _⟩ | ⟨hbad, _⟩)
      · exact (hold (fun hai => hno ⟨hai, hb⟩)).1 hlink
      · exact hbp hbad
      · exact hbi hbad
    · rintro (⟨hlink, _, hno⟩ | ⟨hbad, _⟩ | ⟨_, hbad, _⟩)
      · exact (hold (fun hai => hno ⟨hai, hb⟩)).2 hlink
      · exact hbi hbad
      · exact hbp hbad
  · intro a ha
    have hai : a ≠ i := fun heq => ha (heq ▸ hi)
    rw [moveInto_connected, Function.update_of_ne hai]
    exact h.flagsKept a ha
  · intro a b ha hb
    have hai : a ≠ i := fun heq => ha (heq ▸ hi)
    have hbi : b ≠ i := fun heq => hb (heq ▸ hi)
    rw [moveInto_link, ← h.linksKept a b ha hb]
    simp [hai, hbi]

/-- The whole loop. -/
theorem movedInto_foldl (hdisj : List.Disjoint p q) (sg : ServerGrp n) :
    MovedInto p q p sg (p.foldl (ServerGrp.moveInto p q) sg) := by
  have hloop : ∀ l : List (Fin n), (∀ a ∈ l, a ∈ p) → MovedInto p q l sg (l.foldl (ServerGrp.moveInto p q) sg) := by
    intro l
    induction l using List.reverseRecOn with
    | nil =>
        intro _
        refine ⟨?_, ?_, ?_, fun _ _ => rfl, fun _ _ _ _ => Iff.rfl⟩ <;> simp
    | append_singleton l i ih =>
        intro hl
        have hl' : ∀ a ∈ l, a ∈ p := fun a ha => hl a (List.mem_append_left _ ha)
        rw [List.foldl_append]
        exact (ih hl').step hdisj hl' (hl i (by simp))
  exact hloop p (fun _ h => h)

section Lists

variable {sg : ServerGrp n} {p1 p2 : List (Fin n)} {i j : Fin n}

/-- The two loops of `Partition`, the second on what the first has left. -/
theorem partition_loops (hdisj : List.Disjoint p1 p2) (sg : ServerGrp n) :
    ∃ sg₁, MovedInto p1 p2 p1 sg sg₁ ∧ MovedInto p2 p1 p2 sg₁ (sg.partition p1 p2) :=
  ⟨_, movedInto_foldl hdisj sg, movedInto_foldl (fun _ h2 h1 => hdisj h1 h2) _⟩

/-- The second loop leaves the servers of the first list as the first loop has them. -/
theorem partition_connected (hdisj : List.Disjoint p1 p2) (hi : i ∈ p1 ∨ i ∈ p2) :
    (sg.partition p1 p2).connected i = true := by
  obtain ⟨sg₁, hfirst, hsecond⟩ := partition_loops hdisj sg
  rcases hi with hi | hi
  · rw [hsecond.flagsKept i (hdisj hi)]
    exact hfirst.flagged i hi
  · exact hsecond.flagged i hi

theorem partition_linked (hdisj : List.Disjoint p1 p2) (h : (i ∈ p1 ∧ j ∈ p1) ∨ (i ∈ p2 ∧ j ∈ p2)) :
    (sg.partition p1 p2).link i j = true := by
  obtain ⟨sg₁, hfirst, hsecond⟩ := partition_loops hdisj sg
  rcases h with ⟨hi, hj⟩ | ⟨hi, hj⟩
  · rw [hsecond.linksKept i j (hdisj hi) (hdisj hj)]
    exact hfirst.linked i hi j hj
  · exact hsecond.linked i hi j hj

theorem partition_apart (hdisj : List.Disjoint p1 p2) (hi : i ∈ p1) (hj : j ∈ p2) :
    ¬ (sg.partition p1 p2).link i j = true ∧ ¬ (sg.partition p1 p2).link j i = true := by
  obtain ⟨sg₁, _, hsecond⟩ := partition_loops hdisj sg
  exact (hsecond.apart j hj i hi).symm

/-- The flags say nothing about the ends any more. -/
theorem partition_not_precise (hdisj : List.Disjoint p1 p2) (hi : i ∈ p1) (hj : j ∈ p2) :
    ¬ (sg.partition p1 p2).Precise := by
  intro hprecise
  apply (partition_apart hdisj hi hj).1
  apply (hprecise i j).mpr
  exact ⟨partition_connected hdisj (Or.inl hi), partition_connected hdisj (Or.inr hj)⟩

end Lists

/-- **Partition makes exactly the ends within the two lists enabled.** The lists have every server between them, and
the group may have been in any state. -/
theorem partition_exact (sg : ServerGrp n) {p1 p2 : List (Fin n)} (hdisj : List.Disjoint p1 p2)
    (hall : ∀ i, i ∈ p1 ∨ i ∈ p2) :
    (∀ i j, (sg.partition p1 p2).link i j = true ↔ (i ∈ p1 ∧ j ∈ p1) ∨ (i ∈ p2 ∧ j ∈ p2)) ∧
    ∀ i, (sg.partition p1 p2).connected i = true := by
  refine ⟨fun i j => ⟨fun hlink => ?_, partition_linked hdisj⟩, fun i => partition_connected hdisj (hall i)⟩
  rcases hall i with hi | hi <;> rcases hall j with hj | hj
  · exact Or.inl ⟨hi, hj⟩
  · exact absurd hlink (partition_apart hdisj hi hj).1
  · exact absurd hlink (partition_apart hdisj hj hi).2
  · exact Or.inr ⟨hi, hj⟩

/-- Names for the ends of four servers, a letter each. -/
def fourNames (i j : Fin 4) : String := String.ofList [Char.ofNat (97 + 4 * i.val + j.val)]

/-- The four servers. -/
def fourServers : ServerGrp 4 := (makeSrvGrp emptyNet 0 fourNames).get (by decide +kernel)

theorem fourServers_precise : fourServers.Precise := makeSrvGrp_precise (Option.some_get _).symm

/-- Four connected servers in two halves: the ends within a half stay, those across are disabled, and every server is
flagged still. -/
theorem partition_exact_halves :
    ∃ sg : ServerGrp 4, (∀ i j, sg.link i j = true) ∧
      (sg.partition [0, 1] [2, 3]).link 0 1 = true ∧ (sg.partition [0, 1] [2, 3]).link 3 2 = true ∧
      (sg.partition [0, 1] [2, 3]).link 0 2 = false ∧ (sg.partition [0, 1] [2, 3]).link 3 1 = false ∧
      ∀ i, (sg.partition [0, 1] [2, 3]).connected i = true := by
  have hdisj : List.Disjoint [(0 : Fin 4), 1] [2, 3] := by
    unfold List.Disjoint
    decide
  obtain ⟨hlink, hconn⟩ := partition_exact fourServers.connectAll hdisj (by decide)
  refine ⟨_, connectAll_link fourServers_precise, (hlink 0 1).mpr (by decide), (hlink 3 2).mpr (by decide),
    ?_, ?_, hconn⟩
  · exact Bool.eq_false_iff.mpr (fun h => absurd ((hlink 0 2).mp h) (by decide))
  · exact Bool.eq_false_iff.mpr (fun h => absurd ((hlink 3 1).mp h) (by decide))

end Partition

end Tester
end DistributedLabs
