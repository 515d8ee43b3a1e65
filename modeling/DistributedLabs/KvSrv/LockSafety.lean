import DistributedLabs.KvSrv.LockInvariant

/-!
# `KvSrv.LockSafety` — one holder at a time, and no lock left behind

The two results about the lock, over every run of any number of clients on one lock name, with lost
requests, lost replies and requests executed late. Both read off `LockOk` at the reached state.

* `mutual_exclusion`: two clients do not hold the lock together. A holder's ID is the value of the key
  (`LockOk.value_of_holding`), and two clients have two IDs.
* `lock_never_orphaned`: the value of the key is the ID of somebody inside, so that a key that nobody is inside
  for is free; and when a `Release` returns, its Put has been applied, once, whatever the Clerk had to resend.

Both assume fewer than `2 ^ 64` Puts applied to the lock key; by `appliedOn_le_putCalls` that is so whenever
fewer than `2 ^ 64` calls of `Clerk.Put` are made on it. Neither says that an `Acquire` returns: the network may drop
every request, and two clients may overtake each other for ever.
-/

namespace DistributedLabs
namespace KvSrv

open Lib

section Results

variable {S : LockSetup} {tr : List LockEvent} {s : LockState}

/-- A holder's ID is the value of the lock key. -/
theorem LockOk.value_of_holding {tr : List Event} (hL : LockOk S tr s) {c : ClientId} {lk : Lock}
    (hl : S.lock c = some lk) (hpc : s.pc c = .holding) :
    (view S.lockname tr s.net.kv).value = lk.holderID := by
  have hok := hL.client hl
  rw [hpc] at hok
  exact hok.2

/-- **Mutual exclusion.** Two different clients are never both between the return of `Acquire` and the call of
`Release`. -/
theorem mutual_exclusion (hrun : Reaches (lockSys S) tr s)
    (hfew : (appliedOn (rpcs tr) S.lockname).length < 2 ^ 64) {c c' : ClientId} {lk lk' : Lock}
    (hl : S.lock c = some lk) (hl' : S.lock c' = some lk') (hne : c ≠ c') :
    ¬ (s.pc c = .holding ∧ s.pc c' = .holding) := by
  rintro ⟨hpc, hpc'⟩
  have hL := lockOk hrun hfew
  have hsame : lk.holderID = lk'.holderID :=
    (hL.value_of_holding hl hpc).symm.trans (hL.value_of_holding hl' hpc')
  exact hne (S.distinct hl hl' hsame)

/-- A non-empty value is the ID of a client that is not outside. -/
theorem LockOk.owner_inside {tr : List Event} (hL : LockOk S tr s) {entry : KVStoreEntry}
    (hentry : s.net.kv.kvStore S.lockname = some entry) (hne : entry.value ≠ "") :
    ∃ c lk, S.lock c = some lk ∧ lk.holderID = entry.value ∧ s.pc c ≠ .outside := by
  have hval : (view S.lockname tr s.net.kv).value = entry.value := by
    show ((s.net.kv.kvStore S.lockname).map KVStoreEntry.value).getD "" = entry.value
    rw [hentry]
    rfl
  rcases hL.owner with hempty | ⟨c, lk, hl, hown⟩
  · exact absurd (hval.symm.trans hempty) hne
  · refine ⟨c, lk, hl, hown.symm.trans hval, fun hpc => ?_⟩
    have hok := hL.client hl
    rw [hpc] at hok
    exact hok.2 hown

/-- The Put of a `Release` that returns has been applied once, and says `OK` or `ErrMaybe`. -/
theorem release_put_ret {tr : List Event} (hrun : Reaches net tr s.net) (hL : LockOk S tr s)
    (hfew : (appliedOn tr S.lockname).length < 2 ^ 64) {c : ClientId} {lk : Lock} {version : Tversion}
    (hl : S.lock c = some lk) (hpc : s.pc c = .releasePut version) {id : Nat} {op : Op} {r : Reply}
    {net' : State} (hs : Step s.net (.ret c id op r) net') :
    op = .put ⟨S.lockname, "", version⟩ ∧ timesApplied tr id = 1
      ∧ (r = .put ⟨.OK⟩ ∨ r = .put ⟨.ErrMaybe⟩) := by
  obtain ⟨call, r₀, hc, hatt, rfl, rfl, rfl, _⟩ := step_ret hs
  have hcalls := callsOk hrun
  have hserved : Served (s.net.calls c) r₀ := ⟨call, hc, hatt⟩
  have hop : call.op = .put ⟨S.lockname, "", version⟩ := by
    have hcall := hL.op hl hc
    rw [hpc] at hcall
    rw [← S.named hl]
    exact (Option.some.inj hcall).symm
  have hok := hL.client hl
  rw [hpc] at hok
  obtain ⟨hdone, hkind⟩ := hok
  -- a served Put has been applied, now or by an earlier attempt
  have hone : 1 ≤ timesApplied tr call.id := by
    rcases hdone with ⟨_, _, x, hx, hone⟩ | ⟨_, _, hno⟩
    · obtain rfl := Option.some.inj (hx.symm.trans hc)
      exact hone
    · exact absurd hserved (hno r₀)
  have hle : timesApplied tr call.id ≤ 1 := by
    have hinv := hcalls.invoked hc
    rw [hop] at hinv
    exact applied_at_most_once hcalls (storeOk hrun) hinv (Nat.le_of_lt hfew)
  refine ⟨hop, by omega, ?_⟩
  rcases hkind r₀ hserved with rfl | rfl
  · left
    simp [clerkResult, putResult]
  · right
    cases hretried : call.retried with
    | false =>
        -- a first attempt told `ErrVersion` would mean that nothing was applied
        have hzero := (verdictOk hrun).firstServed hc hretried hatt (by decide)
        omega
    | true => simp [clerkResult, putResult]

/-- **The lock is never orphaned and `Release` releases.** A non-empty value is the ID of a client inside `Acquire`,
holding the lock or inside `Release`; when a `Release` returns, exactly one attempt of its Put has been applied and
the Clerk said `OK` or `ErrMaybe`; and when nobody is inside, the key is missing or free. -/
theorem lock_never_orphaned (hrun : Reaches (lockSys S) tr s)
    (hfew : (appliedOn (rpcs tr) S.lockname).length < 2 ^ 64) :
    (∀ entry, s.net.kv.kvStore S.lockname = some entry → entry.value ≠ "" →
      ∃ c lk, S.lock c = some lk ∧ lk.holderID = entry.value ∧ s.pc c ≠ .outside)
    ∧ (∀ c lk version id op r s', S.lock c = some lk → s.pc c = .releasePut version →
        LockStep S s (.rpc (.ret c id op r)) s' →
        s'.pc c = .outside ∧ op = .put ⟨S.lockname, "", version⟩ ∧ timesApplied (rpcs tr) id = 1
          ∧ (r = .put ⟨.OK⟩ ∨ r = .put ⟨.ErrMaybe⟩))
    ∧ ((∀ c lk, S.lock c = some lk → s.pc c = .outside) →
        s.net.kv.kvStore S.lockname = none
          ∨ ∃ version, s.net.kv.kvStore S.lockname = some ⟨"", version⟩) := by
  have hL := lockOk hrun hfew
  refine ⟨fun entry hentry hne => hL.owner_inside hentry hne, ?_, ?_⟩
  · intro c lk version id op r s' hl hpc hs
    cases hs with
    | rpc hs _ =>
        have hret := release_put_ret (reaches_rpcs hrun) hL hfew hl hpc hs
        refine ⟨?_, hret⟩
        show S.resume s.pc (.ret c id op r) c = .outside
        rw [resume_ret hl, hpc]
        rcases hret.2.2 with rfl | rfl
        · rfl
        · rfl
  · intro hout
    cases hentry : s.net.kv.kvStore S.lockname with
    | none => exact Or.inl rfl
    | some entry =>
        right
        by_cases hne : entry.value = ""
        · exact ⟨entry.version, by rw [← hne]⟩
        -- a value has an owner, who is inside
        · obtain ⟨c, lk, hl, _, hpc⟩ := hL.owner_inside hentry hne
          exact absurd (hout c lk hl) hpc

end Results

/-! ## The two results on a run of two clients -/

/-- Clients 0 and 1 with a Lock each. -/
def twoLocks : LockSetup := LockSetup.ofList "l" ["a", "b"] (by decide) (by decide)

/-- Client 0's create goes through, but it hears of it only by reading its own ID back; client 1, which
    had found the key missing too, is told `ErrVersion`. -/
def contendedTrace : List LockEvent :=
  [.acquire 0, .rpc (.invoke 0 0 (.get ⟨"l"⟩)), .rpc (.serve 0 0 (.get ⟨"l"⟩) (.get ⟨"", 0, .ErrNoKey⟩)),
   .acquire 1, .rpc (.invoke 1 1 (.get ⟨"l"⟩)), .rpc (.serve 1 1 (.get ⟨"l"⟩) (.get ⟨"", 0, .ErrNoKey⟩)),
   .rpc (.ret 0 0 (.get ⟨"l"⟩) (.get ⟨"", 0, .ErrNoKey⟩)),
   .rpc (.ret 1 1 (.get ⟨"l"⟩) (.get ⟨"", 0, .ErrNoKey⟩)),
   .rpc (.invoke 0 2 (.put ⟨"l", "a", 0⟩)), .rpc (.serve 0 2 (.put ⟨"l", "a", 0⟩) (.put ⟨.OK⟩)),
   .rpc (.lose 0), .rpc (.serve 0 2 (.put ⟨"l", "a", 0⟩) (.put ⟨.ErrVersion⟩)),
   .rpc (.ret 0 2 (.put ⟨"l", "a", 0⟩) (.put ⟨.ErrMaybe⟩)),
   .rpc (.invoke 1 3 (.put ⟨"l", "b", 0⟩)), .rpc (.serve 1 3 (.put ⟨"l", "b", 0⟩) (.put ⟨.ErrVersion⟩)),
   .rpc (.ret 1 3 (.put ⟨"l", "b", 0⟩) (.put ⟨.ErrVersion⟩)),
   .rpc (.invoke 0 4 (.get ⟨"l"⟩)), .rpc (.serve 0 4 (.get ⟨"l"⟩) (.get ⟨"a", 1, .OK⟩)),
   .rpc (.ret 0 4 (.get ⟨"l"⟩) (.get ⟨"a", 1, .OK⟩))]

theorem contendedTrace_reaches :
    ∃ s, Reaches (lockSys twoLocks) contendedTrace s ∧ decide (s.pc 0 = .holding) = true :=
  exists_reaches_with (lockSys_computedBy twoLocks) _ (by decide)

theorem mutual_exclusion_contended :
    ∃ s, Reaches (lockSys twoLocks) contendedTrace s ∧ s.pc 0 = .holding ∧ s.pc 1 ≠ .holding := by
  obtain ⟨s, hs, hpc⟩ := contendedTrace_reaches
  have hpc0 : s.pc 0 = .holding := of_decide_eq_true hpc
  have hnot : ¬ (s.pc 0 = .holding ∧ s.pc 1 = .holding) :=
    mutual_exclusion hs (by decide) rfl rfl (by decide)
  exact ⟨s, hs, hpc0, fun hpc1 => hnot ⟨hpc0, hpc1⟩⟩

/-- Client 0 takes the lock by creating the key and releases it; the reply to its last Put is lost. -/
def releaseTrace : List LockEvent :=
  [.acquire 0, .rpc (.invoke 0 0 (.get ⟨"l"⟩)), .rpc (.serve 0 0 (.get ⟨"l"⟩) (.get ⟨"", 0, .ErrNoKey⟩)),
   .rpc (.ret 0 0 (.get ⟨"l"⟩) (.get ⟨"", 0, .ErrNoKey⟩)),
   .rpc (.invoke 0 1 (.put ⟨"l", "a", 0⟩)), .rpc (.serve 0 1 (.put ⟨"l", "a", 0⟩) (.put ⟨.OK⟩)),
   .rpc (.ret 0 1 (.put ⟨"l", "a", 0⟩) (.put ⟨.OK⟩)), .release 0,
   .rpc (.invoke 0 2 (.get ⟨"l"⟩)), .rpc (.serve 0 2 (.get ⟨"l"⟩) (.get ⟨"a", 1, .OK⟩)),
   .rpc (.ret 0 2 (.get ⟨"l"⟩) (.get ⟨"a", 1, .OK⟩)),
   .rpc (.invoke 0 3 (.put ⟨"l", "", 1⟩)), .rpc (.serve 0 3 (.put ⟨"l", "", 1⟩) (.put ⟨.OK⟩)),
   .rpc (.lose 0), .rpc (.serve 0 3 (.put ⟨"l", "", 1⟩) (.put ⟨.ErrVersion⟩))]

theorem releaseTrace_reaches :
    ∃ s, Reaches (lockSys twoLocks) releaseTrace s
      ∧ decide (s.pc 0 = .releasePut 1) = true :=
  exists_reaches_with (lockSys_computedBy twoLocks) _ (by decide)

theorem lock_never_orphaned_release :
    ∃ s s', Reaches (lockSys twoLocks) releaseTrace s ∧ s.pc 0 = .releasePut 1
      ∧ LockStep twoLocks s (.rpc (.ret 0 3 (.put ⟨"l", "", 1⟩) (.put ⟨.ErrMaybe⟩))) s'
      ∧ s'.pc 0 = .outside ∧ timesApplied (rpcs releaseTrace) 3 = 1 := by
  obtain ⟨s, hs, hpc⟩ := releaseTrace_reaches
  have hpc0 : s.pc 0 = .releasePut 1 := of_decide_eq_true hpc
  obtain ⟨s', hs'⟩ : ∃ s', Reaches (lockSys twoLocks)
      (releaseTrace ++ [.rpc (.ret 0 3 (.put ⟨"l", "", 1⟩) (.put ⟨.ErrMaybe⟩))]) s' :=
    exists_reaches_of_exec (lockSys_computedBy twoLocks) (by decide)
  obtain ⟨s₁, hs₁, hstep⟩ := Run.of_snoc hs'
  obtain rfl := Run.det (lockSys_computedBy twoLocks) hs hs₁
  obtain ⟨hout, _, hone, _⟩ := (lock_never_orphaned hs (by decide)).2.1 0 _ 1 3 _ _ s' rfl hpc0 hstep
  exact ⟨s, s', hs, hpc0, hstep, hout, hone⟩

end KvSrv
end DistributedLabs
