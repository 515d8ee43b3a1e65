import DistributedLabs.KvSrv.Lock
import DistributedLabs.KvSrv.Versions

/-!
# `KvSrv.Release` — what `Lock.Release` writes over

`KvSrv.Lock` is about clients that call `Release` when they hold the lock and leave the lock's key alone otherwise.
Here one client runs `Release` at any time, on any store, and everybody else does what they like: they may write the
key too. The README's `Release` looks at the value that its Get found and goes on only if it is its own ID. The code
does not look, so that its Put goes through whatever was there (`release_undisturbed`).

What holds is that the Put replaces just what the Get has read (`release_as_read`): the version check sees to that, as
long as the version has not come round in between.

So a `Release` is right exactly if its Get found the Lock's own ID (`release_own_iff`), and nothing in the code makes
that so: a client that calls `Release` without the lock frees it for whoever has it (`release_frees_another`).
-/

namespace DistributedLabs
namespace KvSrv

open Lib

/-! ## One client inside the code of its Lock -/

/-- The program point of a client's Lock after an event. -/
def LockPc.after (lk : Lock) (c : ClientId) (pc : LockPc) : Event → LockPc
  | .ret c' _ _ r => if c' = c then pc.resume lk r else pc
  | _ => pc

/-- A client inside the code of its Lock makes the Clerk call of its program point; others make any. -/
def LockPc.makes (lk : Lock) (c : ClientId) (pc : LockPc) : Event → Bool
  | .invoke c' _ op => c' ≠ c || pc.call lk = some op
  | _ => true

/-- From the given program point on the client runs the code of its Lock. -/
def follows (lk : Lock) (c : ClientId) : LockPc → List Event → Bool
  | _, [] => true
  | pc, e :: tr => pc.makes lk c e && follows lk c (pc.after lk c e) tr

section Follows

variable {lk : Lock} {c : ClientId} {pc : LockPc} {tr : List Event} {e : Event}

variable (lk pc) in
/-- What another client does is no concern of the code of this one's Lock. -/
theorem makes_of_other (h : e.client ≠ some c) : pc.makes lk c e = true ∧ pc.after lk c e = pc := by
  cases e with
  | invoke c' id op =>
      have hne : c' ≠ c := fun heq => h (congrArg some heq)
      exact ⟨by simp [LockPc.makes, hne], rfl⟩
  | ret c' id op r => exact ⟨rfl, if_neg (fun heq => h (congrArg some heq))⟩
  | _ => exact ⟨rfl, rfl⟩

/-- What others do does not move the client on. -/
theorem follows_quiet {mid : List Event} (h : ∀ e ∈ mid, e.client ≠ some c) :
    follows lk c pc (mid ++ tr) = follows lk c pc tr := by
  induction mid with
  | nil => rfl
  | cons e mid ih =>
      obtain ⟨hmakes, hafter⟩ := makes_of_other lk pc (h e (List.mem_cons_self ..))
      rw [List.cons_append, follows, hmakes, hafter, Bool.true_and]
      exact ih (fun e' he' => h e' (List.mem_cons_of_mem _ he'))

/-- After its Get `Release` makes one call, a Put with the version that the Get was told. -/
theorem put_of_follows {version : Tversion} (hpc : pc = .releasePut version ∨ pc = .outside)
    (h : follows lk c pc tr = true) {id : Nat} {op : Op} (hinv : .invoke c id op ∈ tr) :
    op = .put ⟨lk.lockname, "", version⟩ := by
  induction tr generalizing pc with
  | nil => exact absurd hinv List.not_mem_nil
  | cons e tr ih =>
      rw [follows, Bool.and_eq_true] at h
      rcases List.mem_cons.mp hinv with rfl | hinv
      · have hcall : pc.call lk = some op := by simpa [LockPc.makes] using h.1
        rcases hpc with rfl | rfl
        · exact (Option.some.inj hcall).symm
        · cases hcall
      · apply ih ?_ h.2 hinv
        -- only the return of the Put moves the client on, and then it is outside
        cases e with
        | ret c' id' op' r =>
            by_cases hc : c' = c
            · simp only [LockPc.after, if_pos hc]
              rcases hpc with rfl | rfl
              · cases r with
                | get r => exact Or.inl rfl
                | put r => exact Or.inr rfl
              · exact Or.inr rfl
            · simp only [LockPc.after, if_neg hc]
              exact hpc
        | _ => exact hpc

end Follows

/-! ## Versions along a run -/

section Versions

variable {s s' : State} {tr : List Event} {k : String}

/-- A Get is told the version of the key, 0 if it is missing. -/
theorem get_version (kv : KVServer) (k : String) : (kv.get ⟨k⟩).version = kv.currentVersion k := by
  unfold KVServer.get KVServer.currentVersion
  cases kv.kvStore k with
  | none => rfl
  | some entry => rfl

/-- A Get that finds a value finds the key's value. -/
theorem get_value_iff (kv : KVServer) (k value : String) :
    (kv.get ⟨k⟩).err = .OK ∧ (kv.get ⟨k⟩).value = value ↔ ∃ version, kv.kvStore k = some ⟨value, version⟩ := by
  unfold KVServer.get
  cases kv.kvStore k with
  | none => simp
  | some entry =>
      obtain ⟨value', version⟩ := entry
      simp

/-- Every Put that is applied on a key moves its version on by one. -/
theorem version_run (h : Run net s tr s') (k : String) :
    s'.kv.currentVersion k = s.kv.currentVersion k + UInt64.ofNat (appliedOn tr k).length := by
  induction h with
  | nil => exact (UInt64.add_zero _).symm
  | @snoc tr s₁ e s₂ _ hs ih =>
      rcases step_store hs with ⟨id, args, ha, hversion, hkv⟩ | ⟨hnone, hkv⟩
      · by_cases hk : k = args.key
        · subst hk
          rw [hkv, currentVersion_set, hversion, ih, appliedOn_snoc_self ha, List.length_append,
            UInt64.ofNat_add, ← UInt64.add_assoc]
          rfl
        · rw [appliedOn_snoc_ne ha hk, ← ih, hkv]
          unfold KVServer.currentVersion
          rw [set_kvStore_ne hk]
      · rw [hkv, appliedOn_snoc_none hnone, ih]

/-- A key that is not written stays as it is. -/
theorem entry_run (h : Run net s tr s') (hnone : appliedOn tr k = []) : s'.kv.kvStore k = s.kv.kvStore k := by
  induction h with
  | nil => rfl
  | @snoc tr s₁ e s₂ _ hs ih =>
      rcases step_store hs with ⟨id, args, ha, _, hkv⟩ | ⟨ha, hkv⟩
      · by_cases hk : k = args.key
        · subst hk
          rw [appliedOn_snoc_self ha] at hnone
          exact absurd hnone (List.append_ne_nil_of_right_ne_nil _ (List.cons_ne_nil _ _))
        · rw [appliedOn_snoc_ne ha hk] at hnone
          rw [hkv, set_kvStore_ne hk]
          exact ih hnone
      · rw [appliedOn_snoc_none ha] at hnone
        rw [hkv]
        exact ih hnone

/-- A version that is back after fewer than `2 ^ 64` Puts has not been away. -/
theorem entry_of_version (h : Run net s tr s') (hfew : (appliedOn tr k).length < 2 ^ 64)
    (hback : s'.kv.currentVersion k = s.kv.currentVersion k) : s'.kv.kvStore k = s.kv.kvStore k := by
  apply entry_run h
  have hsum := version_run h k
  rw [hback] at hsum
  have hzero : UInt64.ofNat (appliedOn tr k).length = 0 := by
    apply UInt64.add_right_inj (s.kv.currentVersion k) |>.mp
    rw [← hsum, UInt64.add_zero]
  have hlength := congrArg UInt64.toNat hzero
  rw [UInt64.toNat_ofNat_of_lt' hfew] at hlength
  exact List.eq_nil_of_length_eq_zero hlength

end Versions

/-! ## A `Release` -/

/-- What happens after the Get of a `Release` has been executed and answered `r`: the answer reaches the client, and
    the Put that it calls next is the call `pid`. -/
structure ReleaseRun (lk : Lock) (c : ClientId) (gid : Nat) (r : GetReply) (pid : Nat) (args : PutArgs)
    (tr : List Event) : Prop where
  follows : follows lk c .releaseGet tr = true
  told : ∃ mid rest, tr = mid ++ .ret c gid (.get ⟨lk.lockname⟩) (.get r) :: rest
    ∧ (∀ e ∈ mid, e.client ≠ some c) ∧ .invoke c pid (.put args) ∈ rest

section Results

variable {lk : Lock} {c : ClientId} {s s' s₁ s₂ : State} {gid pid : Nat} {r : GetReply} {args : PutArgs}
  {tr : List Event} {e : Event}

/-- The Put of a `Release` carries the version that its Get was told, and an empty value. -/
theorem ReleaseRun.args_eq (h : ReleaseRun lk c gid r pid args tr) : args = ⟨lk.lockname, "", r.version⟩ := by
  obtain ⟨mid, rest, rfl, hquiet, hinv⟩ := h.told
  have hfollows := h.follows
  rw [follows_quiet hquiet, KvSrv.follows, Bool.and_eq_true] at hfollows
  have hpc : LockPc.after lk c .releaseGet (.ret c gid (.get ⟨lk.lockname⟩) (.get r)) = .releasePut r.version :=
    if_pos rfl
  exact Op.put.inj (put_of_follows (Or.inl hpc) hfollows.2 hinv)

/-- When the Put of a `Release` is applied, the key is as its Get has found it. -/
theorem release_as_read (hget : Step s (.serve c gid (.get ⟨lk.lockname⟩) (.get r)) s')
    (hrel : ReleaseRun lk c gid r pid args tr) (hrun : Run net s' tr s₁)
    (hfew : (appliedOn tr lk.lockname).length < 2 ^ 64) (hs : Step s₁ e s₂) (ha : e.applied = some (pid, args)) :
    s₁.kv.get ⟨lk.lockname⟩ = r := by
  obtain ⟨call, _, _, _, _, hr, rfl⟩ := step_serve hget
  obtain rfl := Reply.get.inj hr
  have hargs := hrel.args_eq
  -- the Put carries the version that was read, and is applied at the version that it carries
  have hback : s₁.kv.currentVersion lk.lockname = s.kv.currentVersion lk.lockname := by
    rcases step_store hs with ⟨id', args', ha', hversion, _⟩ | ⟨hnone, _⟩
    · obtain ⟨_, rfl⟩ := Prod.mk.inj (Option.some.inj (ha.symm.trans ha'))
      rw [hargs] at hversion
      rw [← get_version s.kv]
      exact hversion.symm
    · rw [ha] at hnone
      cases hnone
  have hentry := entry_of_version hrun hfew hback
  unfold KVServer.get
  rw [hentry]
  rfl

/-- A `Release` that nothing disturbs writes the key, whatever was there. -/
theorem release_undisturbed (lk : Lock) (hc : s.calls c = none) :
    ∃ tr s', Run net s tr s' ∧ follows lk c .releaseGet tr = true
      ∧ s'.kv.kvStore lk.lockname = some ⟨"", s.kv.currentVersion lk.lockname + 1⟩ := by
  have hget := call_run hc (.get ⟨lk.lockname⟩)
  have hput := call_run (s := { s with nextId := s.nextId + 1 }) hc
    (.put ⟨lk.lockname, "", s.kv.currentVersion lk.lockname⟩)
  refine ⟨_, _, hget.append hput, ?_, ?_⟩
  · simp [follows, LockPc.makes, LockPc.after, LockPc.call, LockPc.resume, KVServer.dispatch, get_version]
  · show (s.kv.put ⟨lk.lockname, "", s.kv.currentVersion lk.lockname⟩).1.kvStore lk.lockname = _
    rw [put_of_current rfl]
    exact set_kvStore_self ..

/-- From its Get `Release` can go straight on to its Put, which is applied to what the Get has found. -/
theorem release_goes_on (hget : Step s (.serve c gid (.get ⟨lk.lockname⟩) (.get r)) s') :
    ∃ tr pid args s₁ e s₂, ReleaseRun lk c gid r pid args tr ∧ Run net s' tr s₁ ∧ appliedOn tr lk.lockname = []
      ∧ Step s₁ e s₂ ∧ e.applied = some (pid, args) := by
  obtain ⟨call, _, _, _, _, hr, hs'⟩ := step_serve hget
  have hret := ret_of_serve hget (fun _ => rfl)
  have hinv : Step (s'.setCall c none) (.invoke c s'.nextId (.put ⟨lk.lockname, "", r.version⟩)) _ :=
    Step.invoke (setCall_calls_self ..)
  have hkv : s'.kv = s.kv := by
    rw [hs']
    rfl
  refine ⟨_, s'.nextId, _, _, _, _, ⟨?_, [], _, rfl, ?_, List.mem_singleton_self _⟩,
    Run.cons hret (Run.single hinv), rfl, Step.serve (setCall_calls_self ..) rfl, ?_⟩
  · simp [follows, LockPc.makes, LockPc.after, LockPc.call, LockPc.resume]
  · exact fun e he => absurd he List.not_mem_nil
  · have hversion : s'.kv.currentVersion lk.lockname = r.version := by
      rw [hkv, Reply.get.inj hr]
      exact (get_version ..).symm
    show (appliedPut _ (s'.kv.dispatch (.put ⟨lk.lockname, "", r.version⟩)).2).map _ = _
    rw [dispatch_current hversion]
    rfl

/-- **When `Release` touches only its own lock.** Let the Get of a `Release` be executed, on any store, and answered
`r`. In every run in which the client is told `r`, with fewer than `2 ^ 64` Puts on the key since, the Put of the
`Release` is applied only when the value of the key is the Lock's own ID, exactly if that is what the Get has found. -/
theorem release_own_iff (hget : Step s (.serve c gid (.get ⟨lk.lockname⟩) (.get r)) s') :
    (∀ tr pid args s₁ e s₂, ReleaseRun lk c gid r pid args tr → Run net s' tr s₁ →
      (appliedOn tr lk.lockname).length < 2 ^ 64 → Step s₁ e s₂ → e.applied = some (pid, args) →
      ∃ version, s₁.kv.kvStore lk.lockname = some ⟨lk.holderID, version⟩)
    ↔ r.err = .OK ∧ r.value = lk.holderID := by
  constructor
  · intro hown
    obtain ⟨tr, pid, args, s₁, e, s₂, hrel, hrun, hnone, hs, ha⟩ := release_goes_on hget
    have hfew : (appliedOn tr lk.lockname).length < 2 ^ 64 := by
      rw [hnone]
      decide
    have hentry := hown tr pid args s₁ e s₂ hrel hrun hfew hs ha
    rw [← release_as_read hget hrel hrun hfew hs ha]
    exact (get_value_iff s₁.kv lk.lockname lk.holderID).mpr hentry
  · rintro hfound tr pid args s₁ e s₂ hrel hrun hfew hs ha
    apply (get_value_iff s₁.kv lk.lockname lk.holderID).mp
    rw [release_as_read hget hrel hrun hfew hs ha]
    exact hfound

end Results

/-- The holder's own `Release`. -/
theorem release_own_iff_holder :
    ∃ s s', s.kv.kvStore "l" = some ⟨"a", 1⟩ ∧ Step s (.serve 0 1 (.get ⟨"l"⟩) (.get ⟨"a", 1, .OK⟩)) s'
      ∧ ∀ tr pid args s₁ e s₂, ReleaseRun (makeLock "a" "l") 0 1 ⟨"a", 1, .OK⟩ pid args tr → Run net s' tr s₁ →
        (appliedOn tr "l").length < 2 ^ 64 → Step s₁ e s₂ → e.applied = some (pid, args) →
        ∃ version, s₁.kv.kvStore "l" = some ⟨"a", version⟩ := by
  have hcall : (State.setCall ⟨makeKVServer.set "l" ⟨"a", 1⟩, fun _ => none, [], 2⟩ 0
      (some ⟨1, .get ⟨"l"⟩, false, .sent⟩)).calls 0 = some ⟨1, .get ⟨"l"⟩, false, .sent⟩ := setCall_calls_self ..
  have hget := Step.serve hcall rfl
  refine ⟨_, _, rfl, hget, ?_⟩
  have hget' : Step _ (.serve 0 1 (.get ⟨(makeLock "a" "l").lockname⟩) (.get ⟨"a", 1, .OK⟩)) _ := hget
  exact (release_own_iff hget').mpr ⟨rfl, rfl⟩

/-- Client 1 has made the lock its own when client 0, which has not called `Acquire`, calls `Release`: the lock is
    free. -/
theorem release_frees_another :
    ∃ s tr s', Reaches net [.invoke 1 0 (.put ⟨"l", "b", 0⟩), .serve 1 0 (.put ⟨"l", "b", 0⟩) (.put ⟨.OK⟩),
        .ret 1 0 (.put ⟨"l", "b", 0⟩) (.put ⟨.OK⟩)] s
      ∧ s.kv.kvStore "l" = some ⟨"b", 1⟩ ∧ Run net s tr s'
      ∧ follows (makeLock "a" "l") 0 .releaseGet tr = true ∧ s'.kv.kvStore "l" = some ⟨"", 2⟩ := by
  have hheld := call_run (s := net.init) (c := 1) rfl (.put ⟨"l", "b", 0⟩)
  obtain ⟨tr, s', hrun, hfollows, hstore⟩ := release_undisturbed (c := 0)
    (s := { net.init with kv := (net.init.kv.dispatch (.put ⟨"l", "b", 0⟩)).1, nextId := 1 }) (makeLock "a" "l") rfl
  exact ⟨_, tr, s', hheld, rfl, hrun, hfollows, hstore⟩

end KvSrv
end DistributedLabs
