import DistributedLabs.KvSrv.PutConcurrent

/-!
# `KvSrv.ReadBack` — what `OnePut` reads after its Put

After a Put that was told `OK`, `OnePut` gets the key back and asks whether the version is the one after its own
(`my put?`). If so it tests the entry, but fails only if both `Id` and `V` are wrong. The Put it was told about has its
own place among the Puts applied on the key, the one that its version names, and the Get is answered after that
(`ReadBack`). So the version is newer in any case, and if it is the next one, both `Id` and `V` are right
(`onePut_reads_back`): the test could ask for either.

That a version names a place is the version accounting of `KvSrv.Accounting` and needs fewer than `2 ^ 64` Puts on the
key. `onePut_never_fails` (in `KvSrv.PutConcurrent`) has no such bound: the test as it is written holds even where
versions come round.
-/

namespace DistributedLabs
namespace KvSrv

open Lib

/-- Among the Puts applied on a key, the one that a version names is the client's own. -/
def PutSetup.Own (S : PutSetup) (c : ClientId) (k : String) (ver : Tversion) (l : List (Nat × PutArgs)) : Prop :=
  ∃ id, l[ver.toNat]? = some (id, ⟨k, S.marshal ⟨c, ver⟩, ver⟩)

section ReadBack

variable {S : PutSetup} {c : ClientId} {k : String} {ver : Tversion} {l l' : List (Nat × PutArgs)}

theorem PutSetup.Own.lt (h : S.Own c k ver l) : ver.toNat < l.length := by
  obtain ⟨_, hget⟩ := h
  exact (List.getElem?_eq_some_iff.mp hget).1

/-- Puts are only added at the end. -/
theorem PutSetup.Own.append (h : S.Own c k ver l) : S.Own c k ver (l ++ l') := by
  obtain ⟨id, hget⟩ := h
  refine ⟨id, ?_⟩
  rw [List.getElem?_append_left (List.getElem?_eq_some_iff.mp hget).1]
  exact hget

/-- A Put that was told `OK` is in the place that its version names. -/
theorem place_of_ok {tr : List Event} {s : State} (hrun : Reaches net tr s) {id : Nat} {args : PutArgs}
    (hfew : (putCalls tr args.key).length < 2 ^ 64) (hret : .ret c id (.put args) (.put ⟨.OK⟩) ∈ tr) :
    (appliedOn tr args.key)[args.version.toNat]? = some (id, args) := by
  have hC := callsOk hrun
  have hinv := (verdictOk hrun).retInvoked hret
  have hone := (verdictOk hrun).retOk hret
  rw [hC.timesApplied_eq hinv] at hone
  obtain ⟨⟨id', args'⟩, hp, hid⟩ := List.countP_pos_iff.mp hone
  obtain rfl : id' = id := by simpa using hid
  -- the call was applied with the request it was invoked with
  obtain ⟨_, _, hinv'⟩ := hC.appliedOn_invoked hp
  obtain rfl : args' = args := Op.put.inj (hC.unique hinv' hinv).2
  obtain ⟨j, hj⟩ := List.mem_iff_getElem?.mp hp
  have hlt := (List.getElem?_eq_some_iff.mp hj).1
  have hle := appliedOn_le_putCalls hrun hfew
  have hver : args'.version = UInt64.ofNat j := (storeOk hrun).version hj
  rw [hver, toNat_ofNat_length (Nat.le_of_lt hlt) (Nat.lt_of_le_of_lt hle hfew)]
  exact hj

/-- What a client that has been told `OK` is about to read back. -/
structure ReadBack (S : PutSetup) (k : String) (tr : List Event) (t : State) (c : ClientId) (pc : PutPc) : Prop where
  own : ∀ ver, pc = .get k ver .OK → S.Own c k ver (appliedOn tr k)
  read : ∀ ver x r, pc = .get k ver .OK → t.calls c = some x → x.attempt = .served (.get r) →
    ∃ pre post, tr = pre ++ post ∧ r.ReadFrom (appliedOn pre k) ∧ S.Own c k ver (appliedOn pre k)

/-- A client that is not there has nothing to read back. -/
theorem readBack_of_ne {tr : List Event} {t : State} {pc : PutPc} (h : ∀ ver, pc ≠ .get k ver .OK) :
    ReadBack S k tr t c pc :=
  ⟨fun ver hpc => absurd hpc (h ver), fun ver _ _ hpc => absurd hpc (h ver)⟩

variable {s s' : PutState} {t' : State} {tr : List Event} {e : Event} {a : Putter}

/-- A client waits while the service takes a step. -/
theorem ReadBack.move (h : ReadBack S k tr s.net c a.pc) (hok : PutterOk S s.net.kv c (s.net.calls c) a)
    (hrun : Reaches net tr s.net) (hs : Step s.net e t') : ReadBack S k (tr ++ [e]) t' c a.pc := by
  refine ⟨fun ver hpc => ?_, fun ver x r hpc hx hr => ?_⟩
  · rw [appliedOn_append]
    exact (h.own ver hpc).append
  · rcases step_calls hs hx with ⟨_, _, rfl, _⟩ | ⟨x₀, hx₀, hmove⟩
    · cases hr
    · cases hmove with
      | same =>
          obtain ⟨pre, post, rfl, hread, hown⟩ := h.read ver x r hpc hx₀ hr
          exact ⟨pre, post ++ [e], by simp, hread, hown⟩
      | resent => cases hr
      | served _ _ =>
          -- the Get is answered now, from a store in which the client's Put has its place
          have hown := h.own ver hpc
          have hop := hok.op x₀ hx₀
          rw [hpc] at hop
          rw [← Option.some.inj hop] at hr
          obtain rfl : s.net.kv.get ⟨k⟩ = r := Reply.get.inj (Attempt.served.inj hr)
          have hstore := storeOk hrun
          have hpos := Nat.lt_of_le_of_lt (Nat.zero_le _) hown.lt
          exact ⟨tr, [e], rfl, readFrom_of_get hstore (get_ok_of_applied hstore hpos), hown⟩

/-- A client is told `OK`. -/
theorem readBack_told {id : Nat} {op : Op} {r : Reply} (h : PuttersOk S s) (hrun : Reaches net tr s.net)
    (hs : Step s.net (.ret c id op r) t') (hc : c < S.nclnt)
    (hfew : (putCalls (tr ++ [.ret c id op r]) k).length < 2 ^ 64) :
    ReadBack S k (tr ++ [.ret c id op r]) t' c (S.resume c (s.client c) r).pc := by
  have hnext := h.resumed hs hc
  have hafter := hrun.snoc hs
  obtain ⟨x, _, hx, _, _, hop, _, rfl⟩ := step_ret hs
  have hcall := (h.putter c hc).op x hx
  generalize S.resume c (s.client c) r = a' at hnext
  cases hnext with
  | @told k' ver' err args hkey _ _ _ hpc =>
      refine ⟨fun ver heq => ?_, fun _ y _ _ hy => by simp at hy⟩
      obtain ⟨rfl, rfl, rfl⟩ : k' = k ∧ ver' = ver ∧ err = .OK := by simpa using heq
      rw [hpc, hop] at hcall
      obtain rfl := Op.put.inj (Option.some.inj hcall)
      have hplace := fun hfew => place_of_ok hafter hfew (List.mem_append_right _ (List.mem_singleton_self _))
      exact ⟨id, hplace hfew⟩
  | done _ _ _ => exact readBack_of_ne (by simp [Putter.count])
  | again _ _ _ => exact readBack_of_ne (by simp)

/-- In every run a client that was told `OK` has its Put in the place that the version names. -/
theorem readBack {tr : List PutEvent} (hrun : Reaches (putSys S) tr s) (hc : c < S.nclnt)
    (hfew : (putCalls (putRpcs tr) k).length < 2 ^ 64) : ReadBack S k (putRpcs tr) s.net c (s.client c).pc := by
  refine Reaches.invariant (P := fun tr s => (putCalls (putRpcs tr) k).length < 2 ^ 64 →
    ReadBack S k (putRpcs tr) s.net c (s.client c).pc) (fun _ => readBack_of_ne (by simp [putSys])) ?_ hrun hfew
  intro tr s e s' hrun ih hs hfew
  have hok := puttersOk hrun
  have hnet := putRpcs_reaches hrun
  have ih : ReadBack S k (putRpcs tr) s.net c (s.client c).pc := by
    refine ih (Nat.lt_of_le_of_lt ?_ hfew)
    rw [putRpcs_snoc, putCalls, putCalls, List.filterMap_append, List.length_append]
    exact Nat.le_add_right _ _
  -- another client leaves this one where it is
  have hgoto : ∀ {c₀ : ClientId} {pc : PutPc}, (∀ ver, pc ≠ .get k ver .OK) →
      ReadBack S k (putRpcs tr) (s.goto c₀ pc).net c ((s.goto c₀ pc).client c).pc := by
    intro c₀ pc hpc
    by_cases heq : c = c₀
    · subst heq
      refine readBack_of_ne ?_
      simpa [PutState.goto] using hpc
    · simpa [PutState.goto, heq] using ih
  cases hs with
  | iterate _ _ _ =>
      rw [putRpcs_snoc]
      simpa [PutEvent.rpc?] using hgoto (by simp)
  | stop _ _ =>
      rw [putRpcs_snoc]
      simpa [PutEvent.rpc?] using hgoto (by simp)
  | @rpc e t' hs _ =>
      rw [putRpcs_snoc] at hfew ⊢
      show ReadBack S k (putRpcs tr ++ [e]) t' c (S.resumeAll s.client e c).pc
      by_cases hret : ∃ id op r, e = .ret c id op r
      · obtain ⟨id, op, r, rfl⟩ := hret
        rw [S.resumeAll_self hc]
        exact readBack_told hok hnet hs hc hfew
      · rw [S.resumeAll_ne (fun id op r heq => hret ⟨id, op, r, heq⟩)]
        exact ih.move (hok.putter c hc) hnet hs

end ReadBack

/-- **`OnePut` reads back a newer version or its own entry.** A client whose Put under version `ver` was told `OK` and
    whose Get returns is told a version above `ver`, and if it is `ver + 1`, the entry is the client's own, with its
    number and that version; fewer than `2 ^ 64` calls of `Clerk.Put` on the key so far, whatever the network does. -/
theorem onePut_reads_back {S : PutSetup} {tr : List PutEvent} {s s' : PutState} (hrun : Reaches (putSys S) tr s)
    {c : ClientId} (hc : c < S.nclnt) {k : String} {ver : Tversion} (hpc : (s.client c).pc = .get k ver .OK)
    (hfew : (putCalls (putRpcs tr) k).length < 2 ^ 64) {id : Nat} {op : Op} {r : GetReply}
    (hret : PutStep S s (.rpc (.ret c id op (.get r))) s') :
    ver.toNat < r.version.toNat ∧ (r.version = ver + 1 → S.getJson r = some (ver + 1, ⟨c, ver⟩)) := by
  cases hret with
  | rpc hret _ =>
      obtain ⟨x, r₀, hx, hatt, _, _, hr, _⟩ := step_ret hret
      obtain rfl := clerkResult_get hr
      obtain ⟨pre, post, hsplit, ⟨p, hlast, hvalue, hversion⟩, hown⟩ :=
        (readBack hrun hc hfew).read ver x r hpc hx hatt
      have hlen : (UInt64.ofNat (appliedOn pre k).length).toNat = (appliedOn pre k).length := by
        refine toNat_ofNat_length (Nat.le_trans ?_ (appliedOn_le_putCalls (putRpcs_reaches hrun) hfew)) hfew
        rw [hsplit]
        exact appliedOn_length_le pre post k
      have hlt := hown.lt
      refine ⟨by rw [hversion, hlen]; exact hlt, fun hnext => ?_⟩
      -- the last Put the Get has seen is the one that `ver` names
      have hsucc : (appliedOn pre k).length = ver.toNat + 1 := by
        have hto := congrArg UInt64.toNat (hversion.symm.trans hnext)
        rw [hlen, UInt64.toNat_add] at hto
        have hone : (1 : UInt64).toNat = 1 := rfl
        have hmod := Nat.mod_le (ver.toNat + (1 : UInt64).toNat) (2 ^ 64)
        omega
      obtain ⟨id', hget⟩ := hown
      rw [List.getLast?_eq_getElem?, hsucc, Nat.add_sub_cancel, hget] at hlast
      obtain rfl := Option.some.inj hlast
      -- and the Get was told `OK`
      have hreply := ((puttersOk hrun).putter c hc).reply x _ hx hatt
      rw [hpc] at hreply
      obtain ⟨_, _, hjson⟩ := hreply
      have herr : r.err = .OK := by
        by_contra hne
        rw [PutSetup.getJson, if_neg hne] at hjson
        cases hjson
      rw [PutSetup.getJson, if_pos herr, hvalue, S.roundTrip, hnext]
      rfl

/-- The return of client 1's Get after its second Put. -/
def getReturn : PutEvent := .rpc (.ret 1 5 (.get ⟨"k"⟩) (.get ⟨twoPutters.marshal ⟨1, 1⟩, 2, .OK⟩))

theorem onePut_reads_back_putTrace : ∃ s s', Reaches (putSys twoPutters) (putTrace.takeWhile (· ≠ getReturn)) s
    ∧ PutStep twoPutters s getReturn s' ∧ (s.client 1).pc = .get "k" 1 .OK
    ∧ twoPutters.getJson ⟨twoPutters.marshal ⟨1, 1⟩, 2, .OK⟩ = some (2, ⟨1, 1⟩) := by
  have hrun : ∃ s, Reaches (putSys twoPutters) (putTrace.takeWhile (· ≠ getReturn)) s
      ∧ decide ((s.client 1).pc = .get "k" 1 .OK ∧ (putNext twoPutters s getReturn).isSome = true) = true :=
    exists_reaches_with (putSys_computedBy _) _ (by decide +kernel)
  obtain ⟨s, hs, hat⟩ := hrun
  obtain ⟨hpc, hnext⟩ := of_decide_eq_true hat
  obtain ⟨s', hs'⟩ := Option.isSome_iff_exists.mp hnext
  have hret : PutStep twoPutters s getReturn s' := (putSys_computedBy twoPutters _ _ _).mpr hs'
  have hback := onePut_reads_back hs (by decide) hpc (by decide +kernel) hret
  exact ⟨s, s', hs, hret, hpc, hback.2 (by decide)⟩

end KvSrv
end DistributedLabs
