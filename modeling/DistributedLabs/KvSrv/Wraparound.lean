import DistributedLabs.KvSrv.Linearizable

/-!
# `KvSrv.Wraparound` — a version that comes round applies one Put twice

A version is a `uint64`. Client 0 creates a key, and the reply is lost. Client 1 then overwrites the key
until the version is 0 again, and only then is client 0's second attempt executed: it is applied too, and
the Clerk returns `OK`. A Get finds version 1 where `2 ^ 64` Puts, all of them answered `OK`, came before.

The run is a family in the number `n` of client 1's Puts. The only fact about `n` that matters is that the
version after them is 0.

That no order explains the history is shown by counting: all Puts have returned before the Get begins, so they
stand before it in any linearization (`before_get`), each with the effect that it was told of; the version the Get
finds would then be their number (`currentVersion_after`), and it is not.
-/

namespace DistributedLabs
namespace KvSrv

open Lib

/-! ## The run -/

/-- A Put of client 1 at version `j`. -/
def lapPut (j : Nat) : Op := .put ⟨"k", "x", UInt64.ofNat j⟩

/-- Client 1 overwrites the key at version `j`. -/
def lap (j : Nat) : List Event :=
  [.invoke 1 j (lapPut j), .serve 1 j (lapPut j) (.put ⟨.OK⟩), .ret 1 j (lapPut j) (.put ⟨.OK⟩)]

/-- Client 1's Puts. -/
def laps (n : Nat) : List Event := (List.range n).flatMap (fun i => lap (i + 1))

theorem laps_succ (n : Nat) : laps (n + 1) = laps n ++ lap (n + 1) := by
  simp [laps, List.range_succ]

/-- Client 0 creates the key and does not hear of it. -/
def wrapStart : List Event := [.invoke 0 0 (lapPut 0), .serve 0 0 (lapPut 0) (.put ⟨.OK⟩), .lose 0]

/-- Its second attempt is applied as well. -/
def wrapAgain : List Event := [.serve 0 0 (lapPut 0) (.put ⟨.OK⟩), .ret 0 0 (lapPut 0) (.put ⟨.OK⟩)]

/-- The Get at the end. -/
def wrapGet (n : Nat) : List Event :=
  [.invoke 1 (n + 1) (.get ⟨"k"⟩), .serve 1 (n + 1) (.get ⟨"k"⟩) (.get ⟨"x", 1, .OK⟩),
   .ret 1 (n + 1) (.get ⟨"k"⟩) (.get ⟨"x", 1, .OK⟩)]

/-- The whole run. -/
def wrapTrace (n : Nat) : List Event := wrapStart ++ laps n ++ wrapAgain ++ wrapGet n

/-- Client 0 waits for its second attempt, and `n` Puts of client 1 have gone through. -/
def lapState (n : Nat) : State where
  kv := makeKVServer.set "k" ⟨"x", UInt64.ofNat (n + 1)⟩
  calls := Function.update (fun _ => none) 0 (some ⟨0, lapPut 0, true, .sent⟩)
  late := []
  nextId := n + 1

theorem set_set (kv : KVServer) (k : String) (e e' : KVStoreEntry) :
    (kv.set k e).set k e' = kv.set k e' := by
  unfold KVServer.set
  rw [Function.update_idem]

theorem dispatch_lapPut {v : Tversion} {j : Nat} (h : UInt64.ofNat j = v) :
    (makeKVServer.set "k" ⟨"x", v⟩).dispatch (lapPut j)
      = (makeKVServer.set "k" ⟨"x", v + 1⟩, .put ⟨.OK⟩) := by
  have hcur : UInt64.ofNat j = (makeKVServer.set "k" ⟨"x", v⟩).currentVersion "k" := by
    simp [KVServer.currentVersion, h]
  have hput : (makeKVServer.set "k" ⟨"x", v⟩).put ⟨"k", "x", UInt64.ofNat j⟩
      = ((makeKVServer.set "k" ⟨"x", v⟩).set "k" ⟨"x", UInt64.ofNat j + 1⟩, ⟨.OK⟩) := put_of_current hcur
  simp only [lapPut, KVServer.dispatch, hput, set_set]
  rw [h]

theorem wrapStart_run : Run net net.init wrapStart (lapState 0) := by
  have hd : makeKVServer.dispatch (lapPut 0) = (makeKVServer.set "k" ⟨"x", 1⟩, .put ⟨.OK⟩) := rfl
  refine run_of_exec net_computedBy ?_
  simp [exec, wrapStart, next, net, State.setCall, Call.resend, hd, lapState]

theorem lap_run (n : Nat) : Run net (lapState n) (lap (n + 1)) (lapState (n + 1)) := by
  have hd : (lapState n).kv.dispatch (lapPut (n + 1)) = ((lapState (n + 1)).kv, .put ⟨.OK⟩) := by
    unfold lapState
    rw [dispatch_lapPut rfl, UInt64.ofNat_add (n + 1) 1]
    rfl
  have hcall := call_run (s := lapState n) (c := 1) rfl (lapPut (n + 1))
  rw [hd] at hcall
  exact hcall

theorem laps_run (n : Nat) : Run net (lapState 0) (laps n) (lapState n) := by
  induction n with
  | zero => exact Run.nil
  | succ n ih =>
      rw [laps_succ]
      exact ih.append (lap_run n)

/-- Once the version is 0 again, client 0's second attempt goes through. -/
theorem wrapAgain_run {n : Nat} (hn : UInt64.ofNat (n + 1) = 0) :
    Run net (lapState n) wrapAgain ⟨makeKVServer.set "k" ⟨"x", 1⟩, fun _ => none, [], n + 1⟩ := by
  have hd : (makeKVServer.set "k" ⟨"x", 0⟩).dispatch (lapPut 0)
      = (makeKVServer.set "k" ⟨"x", 1⟩, .put ⟨.OK⟩) := dispatch_lapPut rfl
  refine run_of_exec net_computedBy ?_
  unfold lapState
  rw [hn]
  simp [exec, wrapAgain, next, State.setCall, hd, clerkResult, putResult]

theorem wrapTrace_reaches {n : Nat} (hn : UInt64.ofNat (n + 1) = 0) : ∃ s, Reaches net (wrapTrace n) s :=
  ⟨_, ((wrapStart_run.append (laps_run n)).append (wrapAgain_run hn)).append
    (call_run (c := 1) rfl (.get ⟨"k"⟩))⟩

/-! ## No order explains it -/

section Counting

variable {n : Nat}

theorem mem_laps {e : Event} : e ∈ laps n ↔ ∃ i, i < n ∧ e ∈ lap (i + 1) := by
  simp [laps]

/-- Every call of the run but the last is one of the Puts. -/
theorem invoke_wrapTrace {c : ClientId} {id : Nat} {op : Op} (h : .invoke c id op ∈ wrapTrace n) :
    (id ≤ n ∧ op = lapPut id) ∨ (id = n + 1 ∧ op = .get ⟨"k"⟩) := by
  simp only [wrapTrace, List.mem_append, mem_laps] at h
  rcases h with ((h | ⟨i, hi, h⟩) | h) | h
  · obtain ⟨-, rfl, rfl⟩ : c = 0 ∧ id = 0 ∧ op = lapPut 0 := by simpa [wrapStart] using h
    exact Or.inl ⟨Nat.zero_le n, rfl⟩
  · obtain ⟨-, rfl, rfl⟩ : c = 1 ∧ id = i + 1 ∧ op = lapPut (i + 1) := by simpa [lap] using h
    exact Or.inl ⟨hi, rfl⟩
  · simp [wrapAgain] at h
  · obtain ⟨-, rfl, rfl⟩ : c = 1 ∧ id = n + 1 ∧ op = .get ⟨"k"⟩ := by simpa [wrapGet] using h
    exact Or.inr ⟨rfl, rfl⟩

/-- Each of the Puts has returned `OK` before the Get begins. -/
theorem ret_before_get {id : Nat} (hid : id ≤ n) :
    HEvent.res id (.put ⟨.OK⟩) ∈ history (wrapStart ++ laps n ++ wrapAgain) := by
  unfold history
  refine List.mem_filterMap.mpr ?_
  cases id with
  | zero => exact ⟨.ret 0 0 (lapPut 0) (.put ⟨.OK⟩), by simp [wrapAgain], rfl⟩
  | succ i =>
      refine ⟨.ret 1 (i + 1) (lapPut (i + 1)) (.put ⟨.OK⟩), ?_, rfl⟩
      have hmem : Event.ret 1 (i + 1) (lapPut (i + 1)) (.put ⟨.OK⟩) ∈ laps n :=
        mem_laps.mpr ⟨i, hid, by simp [lap]⟩
      exact List.mem_append_left _ (List.mem_append_right _ hmem)

theorem history_wrapTrace :
    history (wrapTrace n) = history (wrapStart ++ laps n ++ wrapAgain)
      ++ [.inv (n + 1) (.get ⟨"k"⟩), .res (n + 1) (.get ⟨"x", 1, .OK⟩)] := by
  unfold wrapTrace history
  rw [List.filterMap_append]
  rfl

theorem put_precedes_get {id : Nat} (hid : id ≤ n) : Precedes (history (wrapTrace n)) id (n + 1) :=
  ⟨_, _, history_wrapTrace, ⟨_, ret_before_get hid⟩, .get ⟨"k"⟩, by simp⟩

/-- Each applied Put on a key moves its version by one. -/
theorem currentVersion_after {L : List (LinOp Op Reply)} {kv : KVServer} (hleg : kvSpec.Legal kv L)
    (hall : ∀ o ∈ L, o.ret = .put ⟨.OK⟩ ∧ ∃ j, o.op = lapPut j) :
    (kvSpec.after kv L).currentVersion "k" = kv.currentVersion "k" + UInt64.ofNat L.length := by
  induction L generalizing kv with
  | nil => simp
  | cons o rest ih =>
      obtain ⟨hret, j, hop⟩ := hall o (List.mem_cons_self ..)
      have hfirst : (kv.dispatch o.op).2 = o.ret := hleg.1
      have hrest : ∀ o' ∈ rest, o'.ret = .put ⟨.OK⟩ ∧ ∃ j, o'.op = lapPut j :=
        fun o' ho' => hall o' (List.mem_cons_of_mem o ho')
      rcases dispatch_cases kv o.op with ⟨args, hargs, hv, hd⟩ | ⟨_, hne⟩
      · have hkey : args.key = "k" := by
          rw [hop] at hargs
          rw [← Op.put.inj hargs]
        have hone : (kv.dispatch o.op).1.currentVersion "k" = kv.currentVersion "k" + 1 := by
          rw [hd, ← hkey, ← hv]
          simp [KVServer.currentVersion]
        rw [after_cons, ih hleg.2 hrest]
        show (kv.dispatch o.op).1.currentVersion "k" + _ = _
        rw [hone, List.length_cons, UInt64.ofNat_add rest.length 1, UInt64.add_assoc,
          UInt64.add_comm _ (UInt64.ofNat rest.length)]
        rfl
      · exact absurd (hfirst.trans hret) hne

/-- A caller told `OK`, or told the outcome of a Get, was told the truth. -/
theorem Explains.eq {told said : Reply} (h : Explains told said) (hne : told ≠ .put ⟨.ErrMaybe⟩) :
    told = said :=
  h.resolve_right (fun hmaybe => hne hmaybe.1)

/-- In an order that explains the run, exactly the `n + 1` Puts stand before the Get, each answered
    `OK`. -/
theorem before_get {l₁ l₂ : List (LinOp Op Reply)} {g : LinOp Op Reply}
    (hL : Linearization kvSpec Explains (history (wrapTrace n)) (l₁ ++ g :: l₂)) (hg : g.id = n + 1) :
    l₁.length = n + 1 ∧ ∀ o ∈ l₁, o.ret = .put ⟨.OK⟩ ∧ ∃ j, o.op = lapPut j := by
  have hnd := hL.nodup
  rw [List.map_append, List.map_cons, List.nodup_middle, List.nodup_cons, ← List.map_append] at hnd
  -- what stands before the Get are Puts of the run, since the Get itself comes once
  have hput : ∀ o ∈ l₁, o.id ≤ n ∧ o.op = lapPut o.id := by
    intro o ho
    obtain ⟨c, hinv⟩ := inv_mem_history.mp (hL.invoked (List.mem_append_left _ ho))
    rcases invoke_wrapTrace hinv with h | ⟨hid, _⟩
    · exact h
    · refine absurd (List.mem_map.mpr ⟨o, List.mem_append_left _ ho, ?_⟩) hnd.1
      rw [hid, hg]
  -- and every Put of the run stands there, since it has returned before the Get begins
  have hback : ∀ id ≤ n, ∃ o ∈ l₁, o.id = id ∧ o.ret = .put ⟨.OK⟩ := by
    intro id hid
    have hres : HEvent.res id (.put ⟨.OK⟩) ∈ history (wrapTrace n) := by
      rw [history_wrapTrace]
      exact List.mem_append_left _ (ret_before_get hid)
    obtain ⟨o, ho, hoid, hex⟩ := hL.complete hres
    have hp : Precedes (history (wrapTrace n)) o.id g.id := by
      rw [hoid, hg]
      exact put_precedes_get hid
    exact ⟨o, hL.mem_before ho hp, hoid, (hex.eq (by decide)).symm⟩
  constructor
  · have hperm : (l₁.map LinOp.id).Perm (List.range (n + 1)) := by
      refine (List.perm_ext_iff_of_nodup (hnd.2.sublist ?_) List.nodup_range).mpr (fun id => ?_)
      · exact (List.sublist_append_left l₁ l₂).map _
      · rw [List.mem_range, List.mem_map]
        constructor
        · rintro ⟨o, ho, rfl⟩
          exact Nat.lt_succ_of_le (hput o ho).1
        · intro hid
          obtain ⟨o, ho, hoid, _⟩ := hback id (Nat.le_of_lt_succ hid)
          exact ⟨o, ho, hoid⟩
    have hlen := hperm.length_eq
    rwa [List.length_map, List.length_range] at hlen
  · intro o ho
    refine ⟨?_, o.id, (hput o ho).2⟩
    obtain ⟨o', ho', hid, hret⟩ := hback o.id (hput o ho).1
    rw [← eq_of_id hL.nodup (List.mem_append_left _ ho') (List.mem_append_left _ ho) hid]
    exact hret

/-- The Get would have to find the version the Puts before it left, which is 0. -/
theorem wrap_not_linearizable (hn : UInt64.ofNat (n + 1) = 0) :
    ¬ Linearizable kvSpec Explains (history (wrapTrace n)) := by
  rintro ⟨L, hL⟩
  have hres : HEvent.res (n + 1) (.get ⟨"x", 1, .OK⟩) ∈ history (wrapTrace n) := by
    rw [history_wrapTrace]
    simp
  obtain ⟨g, hg, hid, hex⟩ := hL.complete hres
  have hret : g.ret = .get ⟨"x", 1, .OK⟩ := (hex.eq (by simp)).symm
  have hop : g.op = .get ⟨"k"⟩ := by
    obtain ⟨c, hinv⟩ := inv_mem_history.mp (hL.invoked hg)
    rcases invoke_wrapTrace hinv with ⟨hle, _⟩ | ⟨_, h⟩
    · omega
    · exact h
  obtain ⟨l₁, l₂, rfl⟩ := List.append_of_mem hg
  obtain ⟨hlen, hall⟩ := before_get hL hid
  have hleg := hL.legal
  rw [legal_append, SeqSpec.Legal] at hleg
  have hzero := currentVersion_after hleg.1 hall
  rw [hlen, hn] at hzero
  -- what the Get saw says 1
  have hget : ((kvSpec.after kvSpec.init l₁).dispatch (.get ⟨"k"⟩)).2 = .get ⟨"x", 1, .OK⟩ := by
    rw [← hop, ← hret]
    exact hleg.2.1
  have hseen : (kvSpec.after kvSpec.init l₁).currentVersion "k" = 1 := by
    cases hk : (kvSpec.after kvSpec.init l₁).kvStore "k" with
    | none => simp [KVServer.dispatch, KVServer.get, hk] at hget
    | some entry =>
        have hver : entry.value = "x" ∧ entry.version = 1 := by
          simpa [KVServer.dispatch, KVServer.get, hk] using hget
        simp [KVServer.currentVersion, hk, hver.2]
  rw [hseen] at hzero
  exact absurd hzero (by decide)

theorem wrapTrace_lateFree : LateFree (wrapTrace n) := by
  intro id op r h
  simp only [wrapTrace, List.mem_append, mem_laps] at h
  rcases h with ((h | ⟨i, _, h⟩) | h) | h
  · simp [wrapStart] at h
  · simp [lap] at h
  · simp [wrapAgain] at h
  · simp [wrapGet] at h

end Counting

/-- **The bound is needed.** A run without late executions whose history is not linearizable: `2 ^ 64 - 1` Puts of
client 1 bring the version back to 0. -/
theorem exists_not_linearizable :
    ∃ tr s, Reaches net tr s ∧ LateFree tr ∧ ¬ Linearizable kvSpec Explains (history tr) := by
  have hn : UInt64.ofNat (2 ^ 64 - 1 + 1) = 0 := by decide
  obtain ⟨s, hs⟩ := wrapTrace_reaches hn
  exact ⟨_, s, hs, wrapTrace_lateFree, wrap_not_linearizable hn⟩

end KvSrv
end DistributedLabs
