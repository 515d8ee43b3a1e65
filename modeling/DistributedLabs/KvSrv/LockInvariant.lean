import DistributedLabs.KvSrv.Lock

/-!
# `KvSrv.LockInvariant` — what a lock client knows, and how it stays true

What keeps the lock safe is the lock key alone: its value, and the number of Puts applied to it, which is
its version. `ClientOk` says for each program point what a client knows about the two:

* a version read or carried by a Put is never ahead of the key's, and if it is the key's own version then
  the value is still the one that was read;
* so a Put of `Acquire` can only hit a free key, and the Put of `Release` only its own holder's;
* a request that outlives its Clerk call has a version the key has left behind.

Every change of the value is then a hand-over (`Handover`): from nobody to a client inside `Acquire`, or
from a client inside `Release` to nobody. The invariant is kept in two moves for each step of the service:
first what the hand-over does to everybody, then what happens to the one call that moved.

The second point depends on clients that call `Release` when they hold the lock; what happens otherwise is the subject
of `KvSrv.Release`. The third is where the late executions come in: a copy that is out late belongs to a call that is
still in progress, or its version has been left behind (`LockOk.late_step`).

All versions here are below `2 ^ 64`, so that a version that the key has left behind does not come back.
-/

namespace DistributedLabs
namespace KvSrv

open Lib

/-! ## The lock key -/

/-- The lock key: its value, empty for a missing key, and the number of Puts applied to it. -/
structure View where
  value : String
  count : Nat

/-- The lock key in a store. -/
def view (k : String) (tr : List Event) (kv : KVServer) : View :=
  ⟨((kv.kvStore k).map KVStoreEntry.value).getD "", (appliedOn tr k).length⟩

theorem ofNat_inj_of_lt {m n : Nat} (hm : m < 2 ^ 64) (hn : n < 2 ^ 64)
    (h : UInt64.ofNat m = UInt64.ofNat n) : m = n := by
  have hto := congrArg UInt64.toNat h
  rwa [UInt64.toNat_ofNat_of_lt' hm, UInt64.toNat_ofNat_of_lt' hn] at hto

section ViewLemmas

variable {k : String} {tr : List Event} {s s' : State} {e : Event}

/-- A step leaves the key alone, or applies a Put that carries the key's version. -/
theorem step_view (hS : StoreOk tr s) (hs : Step s e s') :
    view k (tr ++ [e]) s'.kv = view k tr s.kv
    ∨ ∃ id args, e.applied = some (id, args) ∧ args.key = k
      ∧ args.version = UInt64.ofNat (view k tr s.kv).count
      ∧ view k (tr ++ [e]) s'.kv = ⟨args.value, (view k tr s.kv).count + 1⟩ := by
  rcases step_store hs with ⟨id, args, ha, hv, hkv⟩ | ⟨hnone, hkv⟩
  · by_cases hk : args.key = k
    · subst hk
      rw [hS.currentVersion] at hv
      refine Or.inr ⟨id, args, ha, rfl, hv, ?_⟩
      simp [view, hkv, appliedOn_snoc_self ha]
    · have hk' : k ≠ args.key := fun h => hk h.symm
      refine Or.inl ?_
      simp [view, hkv, appliedOn_snoc_ne ha hk', hk']
  · refine Or.inl ?_
    simp [view, hkv, appliedOn_snoc_none hnone]

theorem view_count_le (k : String) (tr tr' : List Event) (kv kv' : KVServer) :
    (view k tr kv).count ≤ (view k (tr ++ tr') kv').count :=
  appliedOn_length_le tr tr' k

/-- A key nothing was applied to is missing. -/
theorem view_value_of_zero (hS : StoreOk tr s) (h0 : (view k tr s.kv).count = 0) :
    (view k tr s.kv).value = "" := by
  have hnil : appliedOn tr k = [] := List.length_eq_zero_iff.mp h0
  show ((s.kv.kvStore k).map KVStoreEntry.value).getD "" = ""
  rw [hS.store k, hnil]
  rfl

/-- What a Get of the key is told. -/
theorem get_view (hS : StoreOk tr s) :
    (s.kv.get ⟨k⟩).value = (view k tr s.kv).value
      ∧ (s.kv.get ⟨k⟩).version = UInt64.ofNat (view k tr s.kv).count := by
  have hcur := hS.currentVersion k
  unfold KVServer.currentVersion at hcur
  unfold KVServer.get view
  cases hk : s.kv.kvStore k with
  | none =>
      rw [hk] at hcur
      exact ⟨rfl, hcur⟩
  | some entry =>
      rw [hk] at hcur
      exact ⟨rfl, hcur⟩

end ViewLemmas

/-! ## What a client knows -/

/-- The call's current attempt has been served with this reply. -/
def Served (call : Option Call) (r : Reply) : Prop := ∃ x, call = some x ∧ x.attempt = .served r

/-- A version the key has left behind. -/
def Stale (v : View) (version : Tversion) : Prop := ∃ m, version = UInt64.ofNat m ∧ m < v.count

/-- What `Acquire` may still rely on from its Get. -/
def ReadOk (lk : Lock) (v : View) (g : GetReply) : Prop :=
  (Stale v g.version ∨ (g.version = UInt64.ofNat v.count ∧ v.value = g.value))
    ∧ (g.value = lk.holderID → v.value = lk.holderID)

/-- A Put of `Acquire`: its version is the key's, and then the key is free, or it is behind. -/
def AcquirePutOk (lk : Lock) (v : View) (call : Option Call) (version : Tversion) : Prop :=
  (Stale v version ∨ (version = UInt64.ofNat v.count ∧ v.value = "" ∧ ∀ r, ¬ Served call r))
    ∧ ∀ r, Served call r → ∃ p, r = .put p ∧ (p.err = .OK → v.value = lk.holderID)

/-- The Put of `Release`: not applied yet, and the client still has the lock; or applied, and it has not. -/
def ReleasePutOk (lk : Lock) (tr : List Event) (v : View) (call : Option Call) (version : Tversion) : Prop :=
  ((Stale v version ∧ v.value ≠ lk.holderID ∧ ∃ x, call = some x ∧ 1 ≤ timesApplied tr x.id)
      ∨ (version = UInt64.ofNat v.count ∧ v.value = lk.holderID ∧ ∀ r, ¬ Served call r))
    ∧ ∀ r, Served call r → r = .put ⟨.OK⟩ ∨ r = .put ⟨.ErrVersion⟩

/-- What holds of a client at each program point. -/
def ClientOk (lk : Lock) (tr : List Event) (v : View) (call : Option Call) : LockPc → Prop
  | .outside => call = none ∧ v.value ≠ lk.holderID
  | .acquireGet => ∀ r, Served call r → ∃ g, r = .get g ∧ (g.err = .OK → ReadOk lk v g)
  | .acquireCreate => AcquirePutOk lk v call 0
  | .acquireGrab version => AcquirePutOk lk v call version
  | .holding => call = none ∧ v.value = lk.holderID
  | .releaseGet =>
      v.value = lk.holderID ∧ ∀ r, Served call r → ∃ g, r = .get g ∧ g.version = UInt64.ofNat v.count
  | .releasePut version => ReleasePutOk lk tr v call version

/-- The invariant of the lock system. -/
structure LockOk (S : LockSetup) (tr : List Event) (s : LockState) : Prop where
  client : ∀ {c lk}, S.lock c = some lk →
    ClientOk lk tr (view S.lockname tr s.net.kv) (s.net.calls c) (s.pc c)
  op : ∀ {c lk call}, S.lock c = some lk → s.net.calls c = some call → (s.pc c).call lk = some call.op
  others : ∀ {c call}, S.lock c = none → s.net.calls c = some call → call.op.writes S.lockname = false
  late : ∀ {id args}, (id, Op.put args) ∈ s.net.late → args.key = S.lockname →
    Stale (view S.lockname tr s.net.kv) args.version
      ∨ ∃ c call, s.net.calls c = some call ∧ call.id = id ∧ call.op = .put args
  owner : (view S.lockname tr s.net.kv).value = ""
    ∨ ∃ c lk, S.lock c = some lk ∧ (view S.lockname tr s.net.kv).value = lk.holderID

theorem lockOk_init (S : LockSetup) : LockOk S [] (lockSys S).init :=
  { client := fun hl => ⟨rfl, fun h => S.nonempty hl h.symm⟩
    op := fun _ h => by simp [lockSys, net] at h
    others := fun _ h => by simp [lockSys, net] at h
    late := fun h => by simp [lockSys, net] at h
    owner := Or.inl rfl }

/-! ## Hand-overs -/

theorem Stale.ne {v : View} {version : Tversion} (h : Stale v version) (hfew : v.count < 2 ^ 64) :
    version ≠ UInt64.ofNat v.count := by
  obtain ⟨m, rfl, hm⟩ := h
  intro heq
  have hmv := ofNat_inj_of_lt (by omega) hfew heq
  omega

theorem Stale.mono {v v' : View} {version : Tversion} (h : Stale v version) (hle : v.count ≤ v'.count) :
    Stale v' version := by
  obtain ⟨m, hv, hm⟩ := h
  exact ⟨m, hv, by omega⟩

/-- A change of the key's value: who makes it, and with which of its calls. -/
inductive Handover (S : LockSetup) (s : LockState) (v : View) (id : Nat) (value : String) : Prop where
  | take {c lk call} : S.lock c = some lk → s.net.calls c = some call → call.id = id →
      (s.pc c = .acquireCreate ∨ ∃ version, s.pc c = .acquireGrab version) →
      v.value = "" → value = lk.holderID → Handover S s v id value
  | free {c lk call version} : S.lock c = some lk → s.net.calls c = some call → call.id = id →
      s.pc c = .releasePut version → v.value = lk.holderID → value = "" → Handover S s v id value

section Handovers

variable {S : LockSetup} {tr : List Event} {s : LockState} {v : View} {id : Nat} {value : String}
  {c : ClientId} {lk : Lock}

theorem AcquirePutOk.free {call : Option Call} {version : Tversion} (h : AcquirePutOk lk v call version)
    (hfew : v.count < 2 ^ 64) (hv : version = UInt64.ofNat v.count) : v.value = "" := by
  rcases h.1 with hstale | ⟨_, hfree, _⟩
  · exact absurd hv (hstale.ne hfew)
  · exact hfree

theorem ReleasePutOk.owned {call : Option Call} {version : Tversion}
    (h : ReleasePutOk lk tr v call version) (hfew : v.count < 2 ^ 64)
    (hv : version = UInt64.ofNat v.count) : v.value = lk.holderID := by
  rcases h.1 with ⟨hstale, _⟩ | ⟨_, howned, _⟩
  · exact absurd hv (hstale.ne hfew)
  · exact howned

/-- Only lock clients Put to the lock key. -/
theorem LockOk.lock_of_put (hL : LockOk S tr s) {call : Call} {args : PutArgs} (hc : s.net.calls c = some call)
    (hop : call.op = .put args) (hk : args.key = S.lockname) : ∃ lk, S.lock c = some lk := by
  cases hlk : S.lock c with
  | none =>
      have hno := hL.others hlk hc
      simp [hop, Op.writes, hk] at hno
  | some lk => exact ⟨lk, rfl⟩

/-- A call of a lock client that Puts the current version to the lock key hands the lock over. -/
theorem handover_of_call (hL : LockOk S tr s) (hv : v = view S.lockname tr s.net.kv)
    (hfew : v.count < 2 ^ 64) {call : Call} {args : PutArgs} (hc : s.net.calls c = some call)
    (hop : call.op = .put args) (hk : args.key = S.lockname)
    (hver : args.version = UInt64.ofNat v.count) : Handover S s v call.id args.value := by
  obtain ⟨lk, hlk⟩ := hL.lock_of_put hc hop hk
  have hcall := hL.op hlk hc
  have hok := hL.client hlk
  rw [hop] at hcall
  rw [← hv] at hok
  cases hpc : s.pc c with
  | acquireCreate =>
      rw [hpc] at hcall hok
      obtain rfl : _ = args := Op.put.inj (Option.some.inj hcall)
      exact .take hlk hc rfl (Or.inl hpc) (AcquirePutOk.free hok hfew hver) rfl
  | acquireGrab version =>
      rw [hpc] at hcall hok
      obtain rfl : _ = args := Op.put.inj (Option.some.inj hcall)
      exact .take hlk hc rfl (Or.inr ⟨version, hpc⟩) (AcquirePutOk.free hok hfew hver) rfl
  | releasePut version =>
      rw [hpc] at hcall hok
      obtain rfl : _ = args := Op.put.inj (Option.some.inj hcall)
      exact .free hlk hc rfl hpc (ReleasePutOk.owned hok hfew hver) rfl
  | _ => simp [hpc, LockPc.call] at hcall

/-- Whatever is applied to the lock key is a hand-over by a call in progress, late copies included. -/
theorem handover (hL : LockOk S tr s) (hv : v = view S.lockname tr s.net.kv) (hfew : v.count < 2 ^ 64)
    {e : Event} {net' : State} (hs : Step s.net e net') {args : PutArgs}
    (ha : e.applied = some (id, args)) (hk : args.key = S.lockname)
    (hver : args.version = UInt64.ofNat v.count) : Handover S s v id args.value := by
  rcases step_applied hs ha with ⟨c, call, hc, _, rfl, hop, _⟩ | ⟨hl, _⟩
  · exact handover_of_call hL hv hfew hc hop hk hver
  · rcases hL.late hl hk with hstale | ⟨c, call, hc, rfl, hop⟩
    · rw [← hv] at hstale
      exact absurd hver (hstale.ne hfew)
    · exact handover_of_call hL hv hfew hc hop hk hver

/-- Only the owner of the lock hands it over, from inside `Release`. -/
theorem Handover.of_owned (h : Handover S s v id value) (hl : S.lock c = some lk)
    (howned : v.value = lk.holderID) :
    (∃ version, s.pc c = .releasePut version) ∧ value = ""
      ∧ ∃ call, s.net.calls c = some call ∧ call.id = id := by
  cases h with
  | take _ _ _ _ hfree _ => exact absurd (howned.symm.trans hfree) (S.nonempty hl)
  | free hl' hc hid hpc howned' hval =>
      obtain rfl := S.distinct hl' hl (howned'.symm.trans howned)
      exact ⟨⟨_, hpc⟩, hval, _, hc, hid⟩

/-- The lock is handed to a client only inside `Acquire`. -/
theorem Handover.to_holder (h : Handover S s v id value) (hl : S.lock c = some lk)
    (hval : value = lk.holderID) :
    s.pc c = .acquireCreate ∨ ∃ version, s.pc c = .acquireGrab version := by
  cases h with
  | take hl' _ _ hpc _ hval' =>
      obtain rfl := S.distinct hl' hl (hval'.symm.trans hval)
      exact hpc
  | free _ _ _ _ _ hempty => exact absurd (hval.symm.trans hempty) (S.nonempty hl)

theorem Handover.owner (h : Handover S s v id value) :
    value = "" ∨ ∃ c lk, S.lock c = some lk ∧ value = lk.holderID := by
  cases h with
  | take hl _ _ _ _ hval => exact Or.inr ⟨_, _, hl, hval⟩
  | free _ _ _ _ _ hval => exact Or.inl hval

end Handovers

/-! ## What a hand-over does to everybody -/

section AfterHandover

variable {S : LockSetup} {tr : List Event} {s : LockState} {v : View} {id : Nat} {value : String}
  {c : ClientId} {lk : Lock} {e : Event} {args : PutArgs}

theorem Stale.of_current {version : Tversion} (h : version = UInt64.ofNat v.count) :
    Stale ⟨value, v.count + 1⟩ version :=
  ⟨v.count, h, Nat.lt_succ_self _⟩

theorem ReadOk.handover {g : GetReply} (h : ReadOk lk v g) (hh : Handover S s v id value)
    (hl : S.lock c = some lk) (hpc : s.pc c = .acquireGet) : ReadOk lk ⟨value, v.count + 1⟩ g := by
  refine ⟨Or.inl ?_, fun hown => ?_⟩
  · rcases h.1 with hstale | ⟨hcur, _⟩
    · exact hstale.mono (Nat.le_succ _)
    · exact Stale.of_current hcur
  · obtain ⟨⟨version, hrel⟩, _⟩ := hh.of_owned hl (h.2 hown)
    rw [hpc] at hrel
    cases hrel

/-- A Put of `Acquire` in progress: it is the one that is applied, or it comes too late now. -/
theorem AcquirePutOk.handover {call : Option Call} {version : Tversion}
    (h : AcquirePutOk lk v call version) (hh : Handover S s v id value) (hl : S.lock c = some lk)
    (hpc : ∀ version', s.pc c ≠ .releasePut version') :
    AcquirePutOk lk ⟨value, v.count + 1⟩ call version := by
  refine ⟨Or.inl ?_, fun r hr => ?_⟩
  · rcases h.1 with hstale | ⟨hcur, _⟩
    · exact hstale.mono (Nat.le_succ _)
    · exact Stale.of_current hcur
  · obtain ⟨p, hp, hok⟩ := h.2 r hr
    refine ⟨p, hp, fun herr => ?_⟩
    -- the client has the lock, so nobody else can have changed the value
    obtain ⟨⟨version', hrel⟩, _⟩ := hh.of_owned hl (hok herr)
    exact absurd hrel (hpc version')

/-- A Put of `Release` in progress: it is the one that is applied, since nobody else can take the lock from its
holder. -/
theorem ReleasePutOk.handover {call : Option Call} {version : Tversion}
    (h : ReleasePutOk lk tr v call version) (hh : Handover S s v id value) (hl : S.lock c = some lk)
    (hcall : call = s.net.calls c) (hpc : s.pc c = .releasePut version)
    (ha : e.applied = some (id, args)) :
    ReleasePutOk lk (tr ++ [e]) ⟨value, v.count + 1⟩ call version := by
  have hval : value ≠ lk.holderID := by
    intro heq
    rcases hh.to_holder hl heq with hacq | ⟨version', hacq⟩
    · rw [hpc] at hacq
      cases hacq
    · rw [hpc] at hacq
      cases hacq
  refine ⟨Or.inl ?_, h.2⟩
  rcases h.1 with ⟨hstale, _, x, hx, hone⟩ | ⟨hcur, howned, _⟩
  · exact ⟨hstale.mono (Nat.le_succ _), hval, x, hx, Nat.le_trans hone (timesApplied_mono tr [e] x.id)⟩
  · -- the client still had the lock: this is its own Put
    obtain ⟨_, _, x, hx, rfl⟩ := hh.of_owned hl howned
    refine ⟨Stale.of_current hcur, hval, x, hcall.trans hx, ?_⟩
    rw [timesApplied_snoc_self ha]
    exact Nat.succ_pos _

/-- Everybody's knowledge survives a hand-over. -/
theorem ClientOk.handover (h : ClientOk lk tr v (s.net.calls c) (s.pc c))
    (hh : Handover S s v id value) (hl : S.lock c = some lk) (ha : e.applied = some (id, args)) :
    ClientOk lk (tr ++ [e]) ⟨value, v.count + 1⟩ (s.net.calls c) (s.pc c) := by
  cases hpc : s.pc c with
  | outside =>
      rw [hpc] at h
      refine ⟨h.1, fun heq => ?_⟩
      rcases hh.to_holder hl heq with hacq | ⟨version', hacq⟩ <;> simp [hpc] at hacq
  | acquireGet =>
      rw [hpc] at h
      intro r hr
      obtain ⟨g, hg, hread⟩ := h r hr
      exact ⟨g, hg, fun herr => (hread herr).handover hh hl hpc⟩
  | acquireCreate =>
      rw [hpc] at h
      exact AcquirePutOk.handover h hh hl (by simp [hpc])
  | acquireGrab version =>
      rw [hpc] at h
      exact AcquirePutOk.handover h hh hl (by simp [hpc])
  -- a client that has the lock is handed nothing and hands nothing over
  | holding =>
      rw [hpc] at h
      obtain ⟨⟨version, hrel⟩, _⟩ := hh.of_owned hl h.2
      simp [hpc] at hrel
  | releaseGet =>
      rw [hpc] at h
      obtain ⟨⟨version, hrel⟩, _⟩ := hh.of_owned hl h.1
      simp [hpc] at hrel
  | releasePut version =>
      rw [hpc] at h
      exact ReleasePutOk.handover h hh hl rfl hpc ha

/-- A step that leaves the key alone only lengthens the trace. -/
theorem ClientOk.snoc {call : Option Call} {pc : LockPc} (h : ClientOk lk tr v call pc) (e : Event) :
    ClientOk lk (tr ++ [e]) v call pc := by
  cases pc with
  | releasePut version =>
      refine ⟨h.1.imp_left ?_, h.2⟩
      rintro ⟨hstale, hval, x, hx, hone⟩
      exact ⟨hstale, hval, x, hx, Nat.le_trans hone (timesApplied_mono tr [e] x.id)⟩
  | _ => exact h

end AfterHandover

/-! ## What a client's own call does -/

@[simp] theorem served_none (r : Reply) : ¬ Served none r := by
  rintro ⟨x, hx, _⟩
  cases hx

theorem not_served_of_sent {call : Call} (h : call.attempt = .sent) (r : Reply) : ¬ Served (some call) r := by
  rintro ⟨x, hx, hatt⟩
  obtain rfl := Option.some.inj hx
  rw [h] at hatt
  cases hatt

theorem served_some {call : Call} {r : Reply} : Served (some call) r ↔ call.attempt = .served r := by
  constructor
  · rintro ⟨x, hx, hatt⟩
    obtain rfl := Option.some.inj hx
    exact hatt
  · intro hatt
    exact ⟨call, rfl, hatt⟩

section OwnCall

variable {tr : List Event} {v : View} {lk : Lock} {pc : LockPc} {call call' : Call}

/-- A call that has just been made, or is sent once more, tells its client nothing new. -/
theorem ClientOk.unserved {old : Option Call} (h : ClientOk lk tr v old pc)
    (hpc : pc.call lk ≠ none) (hsent : call'.attempt = .sent)
    (hid : ∀ x, old = some x → call'.id = x.id) : ClientOk lk tr v (some call') pc := by
  have hno := not_served_of_sent hsent
  cases pc with
  | outside => exact absurd rfl hpc
  | acquireGet => exact fun r hr => absurd hr (hno r)
  | acquireCreate => exact ⟨h.1.imp_right (fun hcur => ⟨hcur.1, hcur.2.1, hno⟩), fun r hr => absurd hr (hno r)⟩
  | acquireGrab version =>
      exact ⟨h.1.imp_right (fun hcur => ⟨hcur.1, hcur.2.1, hno⟩), fun r hr => absurd hr (hno r)⟩
  | holding => exact absurd rfl hpc
  | releaseGet => exact ⟨h.1, fun r hr => absurd hr (hno r)⟩
  | releasePut version =>
      refine ⟨h.1.imp ?_ (fun hcur => ⟨hcur.1, hcur.2.1, hno⟩), fun r hr => absurd hr (hno r)⟩
      rintro ⟨hstale, hval, x, hx, hone⟩
      exact ⟨hstale, hval, call', rfl, by rw [hid x hx]; exact hone⟩

/-- What the reply of a served request says about the key as it is after the serving. -/
inductive ReplyOk (k : String) (v : View) : Op → Reply → Prop where
  | get {g} : g.value = v.value → g.version = UInt64.ofNat v.count → ReplyOk k v (.get ⟨k⟩) (.get g)
  | put {args p} : args.key = k → args.version ≠ UInt64.ofNat v.count →
      (p.err = .OK → v.value = args.value) →
      (p.err = .OK ∨ p.err = .ErrVersion ∨ v.count = 0) → ReplyOk k v (.put args) (.put p)

theorem AcquirePutOk.serve {r : Reply} {version : Tversion}
    (h : AcquirePutOk lk v (some call) version)
    (hr : ReplyOk lk.lockname v (.put ⟨lk.lockname, lk.holderID, version⟩) r) :
    AcquirePutOk lk v (some { call with attempt := .served r }) version := by
  cases hr with
  | @put _ p hk hne hok _ =>
      refine ⟨Or.inl (h.1.resolve_right (fun hcur => hne hcur.1)), fun r' hr' => ?_⟩
      obtain rfl := Attempt.served.inj (served_some.mp hr')
      exact ⟨p, rfl, hok⟩

/-- The server has answered the Put of `Release`. -/
theorem ReleasePutOk.serve {r : Reply} {version : Tversion}
    (h : ReleasePutOk lk tr v (some call) version)
    (hr : ReplyOk lk.lockname v (.put ⟨lk.lockname, "", version⟩) r) :
    ReleasePutOk lk tr v (some { call with attempt := .served r }) version := by
  cases hr with
  | @put _ p hk hne hok herr =>
      have hdone := h.1.resolve_right (fun hcur => hne hcur.1)
      obtain ⟨hstale, hval, x, hx, hone⟩ := hdone
      obtain rfl := Option.some.inj hx
      refine ⟨Or.inl ⟨hstale, hval, _, rfl, hone⟩, fun r' hr' => ?_⟩
      obtain rfl := Attempt.served.inj (served_some.mp hr')
      obtain ⟨err⟩ := p
      obtain ⟨m, _, hm⟩ := hstale
      rcases herr with herr | herr | h0
      · exact Or.inl (by rw [show err = .OK from herr])
      · exact Or.inr (by rw [show err = .ErrVersion from herr])
      · omega

/-- The server has run the client's request. -/
theorem ClientOk.serve {k : String} {op : Op} {r : Reply} (h : ClientOk lk tr v (some call) pc)
    (hpc : pc.call lk = some op) (hk : lk.lockname = k) (hr : ReplyOk k v op r) :
    ClientOk lk tr v (some { call with attempt := .served r }) pc := by
  subst hk
  cases pc with
  | outside => cases hpc
  | holding => cases hpc
  | acquireGet =>
      obtain rfl := Option.some.inj hpc
      intro r' hr'
      obtain rfl := Attempt.served.inj (served_some.mp hr')
      cases hr with
      | @get g hval hver =>
          exact ⟨g, rfl, fun _ => ⟨Or.inr ⟨hver, hval.symm⟩, fun hown => hval.symm.trans hown⟩⟩
  | acquireCreate =>
      obtain rfl := Option.some.inj hpc
      exact AcquirePutOk.serve h hr
  | acquireGrab version =>
      obtain rfl := Option.some.inj hpc
      exact AcquirePutOk.serve h hr
  | releaseGet =>
      obtain rfl := Option.some.inj hpc
      refine ⟨h.1, fun r' hr' => ?_⟩
      obtain rfl := Attempt.served.inj (served_some.mp hr')
      cases hr with
      | @get g hval hver => exact ⟨g, rfl, hver⟩
  | releasePut version =>
      obtain rfl := Option.some.inj hpc
      exact ReleasePutOk.serve h hr

/-- A Put to the lock key that has been served carries a version the key has left behind. -/
theorem ClientOk.stale_of_served {old : Option Call} {args : PutArgs} {r : Reply}
    (h : ClientOk lk tr v old pc) (hpc : pc.call lk = some (.put args)) (hr : Served old r) :
    Stale v args.version := by
  cases pc with
  | outside => cases hpc
  | holding => cases hpc
  | acquireGet => cases hpc
  | releaseGet => cases hpc
  | acquireCreate =>
      obtain rfl := Op.put.inj (Option.some.inj hpc)
      exact h.1.resolve_right (fun hcur => hcur.2.2 r hr)
  | acquireGrab version =>
      obtain rfl := Op.put.inj (Option.some.inj hpc)
      exact h.1.resolve_right (fun hcur => hcur.2.2 r hr)
  | releasePut version =>
      obtain rfl := Op.put.inj (Option.some.inj hpc)
      exact (h.1.resolve_right (fun hcur => hcur.2.2 r hr)).1

/-- A Put of `Acquire` returns: with `OK` the client has the lock, else it starts over. -/
theorem AcquirePutOk.ret {r : Reply} {version : Tversion} (h : AcquirePutOk lk v (some call) version)
    (hatt : call.attempt = .served r) :
    ∃ p, clerkResult call.retried r = .put p
      ∧ ClientOk lk tr v none (if p.err ≠ .OK then .acquireGet else .holding) := by
  obtain ⟨p, rfl, hok⟩ := h.2 r (served_some.mpr hatt)
  refine ⟨_, rfl, ?_⟩
  by_cases herr : putResult call.retried p = .OK
  · rw [if_neg (not_not_intro herr)]
    have hput : clerkResult call.retried (.put p) = .put ⟨.OK⟩ := by
      show Reply.put ⟨putResult call.retried p⟩ = _
      rw [herr]
    have hp : Reply.put p = .put ⟨.OK⟩ := (clerkResult_put hput (by decide)).1
    exact ⟨rfl, hok (by rw [Reply.put.inj hp])⟩
  · rw [if_pos herr]
    exact fun r hr => absurd hr (served_none r)

/-- The Get of `Acquire` returns. -/
theorem ReadOk.ret {g : GetReply} (hread : g.err = .OK → ReadOk lk v g)
    (hzero : v.count = 0 → v.value = "") : ClientOk lk tr v none (LockPc.resume lk .acquireGet (.get g)) := by
  have hno : ∀ {P : Reply → Prop} (r : Reply), Served none r → P r := fun r hr => absurd hr (served_none r)
  show ClientOk lk tr v none (if g.err ≠ .OK then .acquireCreate
    else if g.value ≠ lk.holderID then (if g.value = "" then .acquireGrab g.version else .acquireGet)
    else .holding)
  by_cases herr : g.err = .OK
  · obtain ⟨hver, hown⟩ := hread herr
    rw [if_neg (not_not_intro herr)]
    by_cases hval : g.value = lk.holderID
    · rw [if_neg (not_not_intro hval)]
      exact ⟨rfl, hown hval⟩
    · rw [if_pos hval]
      by_cases hempty : g.value = ""
      · rw [if_pos hempty]
        exact ⟨hver.imp_right (fun hcur => ⟨hcur.1, hcur.2.trans hempty, served_none⟩), hno⟩
      · rw [if_neg hempty]
        exact hno
  · -- the key was missing: create it, with version 0
    rw [if_pos herr]
    refine ⟨?_, hno⟩
    rcases Nat.eq_zero_or_pos v.count with h0 | hpos
    · exact Or.inr ⟨by rw [h0]; rfl, hzero h0, served_none⟩
    · exact Or.inl ⟨0, rfl, hpos⟩

/-- The client goes on with the result of its call. -/
theorem ClientOk.ret {r : Reply} (h : ClientOk lk tr v (some call) pc) (hatt : call.attempt = .served r)
    (hzero : v.count = 0 → v.value = "") :
    ClientOk lk tr v none (pc.resume lk (clerkResult call.retried r)) := by
  have hserved := served_some.mpr hatt
  cases pc with
  | outside => cases h.1
  | holding => cases h.1
  | acquireGet =>
      obtain ⟨g, rfl, hread⟩ := h r hserved
      exact ReadOk.ret hread hzero
  | acquireCreate =>
      obtain ⟨p, hp, hok⟩ := AcquirePutOk.ret h hatt
      rw [hp]
      exact hok
  | acquireGrab version =>
      obtain ⟨p, hp, hok⟩ := AcquirePutOk.ret h hatt
      rw [hp]
      exact hok
  | releaseGet =>
      obtain ⟨g, rfl, hver⟩ := h.2 r hserved
      exact ⟨Or.inr ⟨hver, h.1, served_none⟩, fun r hr => absurd hr (served_none r)⟩
  | releasePut version =>
      obtain ⟨hdone, hkind⟩ := h
      have hval : v.value ≠ lk.holderID := by
        rcases hdone with ⟨_, hval, _⟩ | ⟨_, _, hno⟩
        · exact hval
        · exact absurd hserved (hno r)
      rcases hkind r hserved with rfl | rfl
      · exact ⟨rfl, hval⟩
      · exact ⟨rfl, hval⟩

end OwnCall

/-! ## One step of the service -/

/-- The replies of the server agree with the key. -/
theorem replyOk {k : String} {tr : List Event} {s s' : State} {c : ClientId} {id : Nat} {op : Op}
    (hS : StoreOk tr s) (hs : Step s (.serve c id op (s.kv.dispatch op).2) s')
    (hop : op = .get ⟨k⟩ ∨ ∃ args, op = .put args ∧ args.key = k)
    (hfew : (view k (tr ++ [.serve c id op (s.kv.dispatch op).2]) s'.kv).count < 2 ^ 64) :
    ReplyOk k (view k (tr ++ [.serve c id op (s.kv.dispatch op).2]) s'.kv) op (s.kv.dispatch op).2 := by
  rcases hop with rfl | ⟨args, rfl, rfl⟩
  · have hview : view k (tr ++ [.serve c id (.get ⟨k⟩) (s.kv.dispatch (.get ⟨k⟩)).2]) s'.kv
        = view k tr s.kv := by
      rcases step_view (k := k) hS hs with hsame | ⟨id', args, ha, _⟩
      · exact hsame
      · cases ha
    rw [hview]
    exact ReplyOk.get (get_view hS).1 (get_view hS).2
  · have hcur := hS.currentVersion args.key
    by_cases hv : args.version = s.kv.currentVersion args.key
    · -- applied: the key has moved on from the version the Put carried
      have hd : (s.kv.dispatch (.put args)).2 = .put ⟨.OK⟩ := dispatch_current hv.symm
      rw [hd] at hs hfew ⊢
      rcases step_view (k := args.key) hS hs with hsame | ⟨id', args', ha, _, _, hview⟩
      · have hlen := congrArg View.count hsame
        have ha : (Event.serve c id (.put args) (.put ⟨.OK⟩)).applied = some (id, args) := rfl
        simp [view, appliedOn_snoc_self ha] at hlen
      · obtain ⟨rfl, rfl⟩ : id = id' ∧ args = args' := by simpa [Event.applied, appliedPut] using ha
        rw [hview] at hfew ⊢
        refine ReplyOk.put rfl ?_ (fun _ => rfl) (Or.inl rfl)
        rw [hv, hcur]
        exact Stale.ne ⟨_, rfl, Nat.lt_succ_self _⟩ hfew
    -- refused: the key stays, and its version is not the one the Put carried
    · have hd : (s.kv.dispatch (.put args)).2
          = .put ⟨if s.kv.kvStore args.key = none then .ErrNoKey else .ErrVersion⟩ := by
        simp only [KVServer.dispatch, put_of_not_current hv]
      have hne : (s.kv.dispatch (.put args)).2 ≠ .put ⟨.OK⟩ := by
        rw [hd]
        split <;> simp
      have hview : view args.key (tr ++ [.serve c id (.put args) (s.kv.dispatch (.put args)).2]) s'.kv
          = view args.key tr s.kv := by
        rcases step_view (k := args.key) hS hs with hsame | ⟨id', args', ha, _⟩
        · exact hsame
        · simp [Event.applied, appliedPut_eq_none hne] at ha
      rw [hview, hd]
      refine ReplyOk.put rfl (hcur ▸ hv) ?_ ?_
      · intro herr
        have hok : (s.kv.dispatch (.put args)).2 = .put ⟨.OK⟩ := by
          rw [hd]
          exact congrArg _ (congrArg _ herr)
        exact absurd hok hne
      · by_cases hk : s.kv.kvStore args.key = none
        · refine Or.inr (Or.inr ?_)
          by_contra h0
          exact absurd hk ((hS.present_iff args.key).mpr (Nat.pos_of_ne_zero h0))
        · exact Or.inr (Or.inl (by rw [if_neg hk]))

theorem LockPc.call_cases {lk : Lock} {pc : LockPc} {op : Op} (h : pc.call lk = some op) :
    op = .get ⟨lk.lockname⟩ ∨ ∃ args, op = .put args ∧ args.key = lk.lockname := by
  cases pc with
  | outside => cases h
  | holding => cases h
  | acquireGet => exact Or.inl (Option.some.inj h).symm
  | releaseGet => exact Or.inl (Option.some.inj h).symm
  | acquireCreate => exact Or.inr ⟨_, (Option.some.inj h).symm, rfl⟩
  | acquireGrab version => exact Or.inr ⟨_, (Option.some.inj h).symm, rfl⟩
  | releasePut version => exact Or.inr ⟨_, (Option.some.inj h).symm, rfl⟩

section ServiceStep

variable {S : LockSetup} {tr : List Event} {s : LockState} {e : Event} {net' : State}

/-- A client inside a Clerk call stays at its program point. -/
theorem resume_of_call (hs : Step s.net e net') {c : ClientId} {call' : Call}
    (hc' : net'.calls c = some call') : S.resume s.pc e c = s.pc c := by
  refine resume_of_not_ret (fun id op r he => ?_)
  subst he
  obtain ⟨_, _, _, _, _, _, _, rfl⟩ := step_ret hs
  simp at hc'

/-- First move: the key changes hands, or does not, and nobody's call has moved yet. -/
theorem LockOk.client_key (hL : LockOk S tr s) (hS : StoreOk tr s.net) (hs : Step s.net e net')
    (hfew : (view S.lockname (tr ++ [e]) net'.kv).count < 2 ^ 64) {c : ClientId} {lk : Lock}
    (hl : S.lock c = some lk) :
    ClientOk lk (tr ++ [e]) (view S.lockname (tr ++ [e]) net'.kv) (s.net.calls c) (s.pc c) := by
  rcases step_view (k := S.lockname) hS hs with hsame | ⟨id, args, ha, hk, hver, hview⟩
  · rw [hsame]
    exact (hL.client hl).snoc e
  · have hfew' : (view S.lockname tr s.net.kv).count < 2 ^ 64 :=
      Nat.lt_of_le_of_lt (view_count_le S.lockname tr [e] s.net.kv net'.kv) hfew
    rw [hview]
    exact (hL.client hl).handover (handover hL rfl hfew' hs ha hk hver) hl ha

/-- Second move: the call that moved. -/
theorem LockOk.client_step (hL : LockOk S tr s) (hS : StoreOk tr s.net) (hs : Step s.net e net')
    (hS' : StoreOk (tr ++ [e]) net') (hallow : S.allows s.pc e = true)
    (hfew : (view S.lockname (tr ++ [e]) net'.kv).count < 2 ^ 64) {c : ClientId} {lk : Lock}
    (hl : S.lock c = some lk) :
    ClientOk lk (tr ++ [e]) (view S.lockname (tr ++ [e]) net'.kv) (net'.calls c) (S.resume s.pc e c) := by
  have hkey := hL.client_key hS hs hfew hl
  cases hc' : net'.calls c with
  | some call' =>
      rw [resume_of_call hs hc']
      rcases step_calls hs hc' with ⟨op, rfl, rfl, hnone⟩ | ⟨call, hc, hmove⟩
      · -- the call of the program point has just been made
        have hcall : (s.pc c).call lk = some op := by
          simpa [LockSetup.allows, LockSetup.mayInvoke, hl] using hallow
        exact hkey.unserved (by simp [hcall]) rfl (by simp [hnone])
      · have hcall := hL.op hl hc
        cases hmove with
        | same =>
            rw [← hc]
            exact hkey
        | served hatt he =>
            subst he
            rw [hc] at hkey
            have hop := LockPc.call_cases hcall
            rw [S.named hl] at hop
            exact hkey.serve hcall (S.named hl) (replyOk hS hs hop hfew)
        | resent => exact hkey.unserved (by simp [hcall]) rfl (by simp [hc, Call.resend])
  | none =>
      cases hc : s.net.calls c with
      | none =>
          rw [hc] at hkey
          -- no call before and none after: the step is not the client's
          have hpc : S.resume s.pc e c = s.pc c := by
            refine resume_of_not_ret (fun id op r he => ?_)
            subst he
            obtain ⟨call, _, hcall, _⟩ := step_ret hs
            rw [hc] at hcall
            cases hcall
          rw [hpc]
          exact hkey
      | some call =>
          rcases step_call_kept hs hc with ⟨call', hsome, _⟩ | ⟨r, hatt, rfl, _⟩
          · rw [hc'] at hsome
            cases hsome
          · rw [hc] at hkey
            rw [resume_ret hl]
            exact hkey.ret hatt (view_value_of_zero hS')

/-- A Put that is out late comes too late, or its call is still in progress. -/
theorem LockOk.late_step (hL : LockOk S tr s) (hS : StoreOk tr s.net) (hs : Step s.net e net')
    (hfew : (view S.lockname (tr ++ [e]) net'.kv).count < 2 ^ 64) {id : Nat} {args : PutArgs}
    (hl' : (id, Op.put args) ∈ net'.late) (hk : args.key = S.lockname) :
    Stale (view S.lockname (tr ++ [e]) net'.kv) args.version
      ∨ ∃ c call, net'.calls c = some call ∧ call.id = id ∧ call.op = .put args := by
  rcases step_late hs hl' with hl | ⟨c, call, _, hid, hop, hc'⟩
  · rcases hL.late hl hk with hstale | ⟨c, call, hc, hid, hop⟩
    · exact Or.inl (hstale.mono (view_count_le _ _ _ _ _))
    · rcases step_call_kept hs hc with ⟨call', hc', hid', hop'⟩ | ⟨r, hatt, _, _⟩
      · exact Or.inr ⟨c, call', hc', hid'.trans hid, hop'.trans hop⟩
      · -- the call returns now: it has been served, so its version is behind
        left
        obtain ⟨lk, hlk⟩ := hL.lock_of_put hc hop hk
        have hkey := hL.client_key hS hs hfew hlk
        have hserved : Served (s.net.calls c) r := ⟨call, hc, hatt⟩
        have hcall := hL.op hlk hc
        rw [hop] at hcall
        exact ClientOk.stale_of_served hkey hcall hserved
  · exact Or.inr ⟨c, call.resend, hc', hid, hop⟩

theorem LockOk.op_step (hL : LockOk S tr s) (hs : Step s.net e net') (hallow : S.allows s.pc e = true)
    {c : ClientId} {lk : Lock} {call' : Call} (hl : S.lock c = some lk)
    (hc' : net'.calls c = some call') : (S.resume s.pc e c).call lk = some call'.op := by
  rw [resume_of_call hs hc']
  rcases step_calls hs hc' with ⟨op, rfl, rfl, _⟩ | ⟨call, hc, hmove⟩
  · simpa [LockSetup.allows, LockSetup.mayInvoke, hl] using hallow
  · rw [hmove.op_eq]
    exact hL.op hl hc

theorem LockOk.others_step (hL : LockOk S tr s) (hs : Step s.net e net')
    (hallow : S.allows s.pc e = true) {c : ClientId} {call' : Call} (hl : S.lock c = none)
    (hc' : net'.calls c = some call') : call'.op.writes S.lockname = false := by
  rcases step_calls hs hc' with ⟨op, rfl, rfl, _⟩ | ⟨call, hc, hmove⟩
  · simpa [LockSetup.allows, LockSetup.mayInvoke, hl] using hallow
  · rw [hmove.op_eq]
    exact hL.others hl hc

theorem LockOk.owner_step (hL : LockOk S tr s) (hS : StoreOk tr s.net) (hs : Step s.net e net')
    (hfew : (view S.lockname (tr ++ [e]) net'.kv).count < 2 ^ 64) :
    (view S.lockname (tr ++ [e]) net'.kv).value = ""
      ∨ ∃ c lk, S.lock c = some lk ∧ (view S.lockname (tr ++ [e]) net'.kv).value = lk.holderID := by
  rcases step_view (k := S.lockname) hS hs with hsame | ⟨id, args, ha, hk, hver, hview⟩
  · rw [hsame]
    exact hL.owner
  · have hfew' : (view S.lockname tr s.net.kv).count < 2 ^ 64 :=
      Nat.lt_of_le_of_lt (view_count_le S.lockname tr [e] s.net.kv net'.kv) hfew
    rw [hview]
    exact (handover hL rfl hfew' hs ha hk hver).owner

/-- **One step of the service**, put together from the two moves. -/
theorem lockOk_rpc (hL : LockOk S tr s) (hS : StoreOk tr s.net) (hs : Step s.net e net')
    (hallow : S.allows s.pc e = true)
    (hfew : (view S.lockname (tr ++ [e]) net'.kv).count < 2 ^ 64) :
    LockOk S (tr ++ [e]) ⟨net', S.resume s.pc e⟩ :=
  { client := fun hl => hL.client_step hS hs (storeOk_step hS hs) hallow hfew hl
    op := fun hl hc' => hL.op_step hs hallow hl hc'
    others := fun hl hc' => hL.others_step hs hallow hl hc'
    late := fun hl' hk => hL.late_step hS hs hfew hl' hk
    owner := hL.owner_step hS hs hfew }

end ServiceStep

/-! ## Every run -/

section Runs

variable {S : LockSetup} {tr : List Event} {s : LockState}

/-- A client enters `Acquire` or `Release`: it has no Clerk call in progress. -/
theorem lockOk_enter (hL : LockOk S tr s) {c : ClientId} {pc : LockPc} (hc : s.net.calls c = none)
    (hpc : ∀ {lk}, S.lock c = some lk → ClientOk lk tr (view S.lockname tr s.net.kv) none pc) :
    LockOk S tr ⟨s.net, Function.update s.pc c pc⟩ := by
  refine ⟨?_, ?_, hL.others, hL.late, hL.owner⟩
  · intro c' lk hl
    show ClientOk lk tr _ (s.net.calls c') (Function.update s.pc c pc c')
    by_cases heq : c' = c
    · subst heq
      rw [hc, Function.update_self]
      exact hpc hl
    · rw [Function.update_of_ne heq]
      exact hL.client hl
  · intro c' lk call hl hcall
    have hne : c' ≠ c := by
      rintro rfl
      rw [show s.net.calls c' = some call from hcall] at hc
      cases hc
    show (Function.update s.pc c pc c').call lk = some call.op
    rw [Function.update_of_ne hne]
    exact hL.op hl hcall

/-- **One step of the lock system.** -/
theorem lockOk_step {tr : List LockEvent} {e : LockEvent} {s' : LockState} (hL : LockOk S (rpcs tr) s)
    (hS : StoreOk (rpcs tr) s.net) (hs : LockStep S s e s')
    (hfew : (appliedOn (rpcs (tr ++ [e])) S.lockname).length < 2 ^ 64) :
    LockOk S (rpcs (tr ++ [e])) s' := by
  cases hs with
  | @acquire c lk hl hpc =>
      rw [rpcs_snoc_acquire]
      have hout := hL.client hl
      rw [hpc] at hout
      exact lockOk_enter hL hout.1 (fun _ r hr => absurd hr (served_none r))
  | @release c lk hl hpc =>
      rw [rpcs_snoc_release]
      have hheld := hL.client hl
      rw [hpc] at hheld
      refine lockOk_enter hL hheld.1 (fun {lk'} hl' => ?_)
      obtain rfl := Option.some.inj (hl.symm.trans hl')
      exact ⟨hheld.2, fun r hr => absurd hr (served_none r)⟩
  | @rpc e net' hs hallow =>
      rw [rpcs_snoc_rpc] at hfew ⊢
      exact lockOk_rpc hL hS hs hallow hfew

/-- **The invariant of every run** with fewer than `2 ^ 64` Puts on the lock key. -/
theorem lockOk {tr : List LockEvent} (hrun : Reaches (lockSys S) tr s)
    (hfew : (appliedOn (rpcs tr) S.lockname).length < 2 ^ 64) : LockOk S (rpcs tr) s := by
  refine Reaches.invariant (P := fun tr s => (appliedOn (rpcs tr) S.lockname).length < 2 ^ 64 →
    LockOk S (rpcs tr) s) (fun _ => lockOk_init S) ?_ hrun hfew
  intro tr s e s' hrun ih hs hfew
  have hle : (appliedOn (rpcs tr) S.lockname).length ≤ (appliedOn (rpcs (tr ++ [e])) S.lockname).length := by
    unfold rpcs
    rw [List.filterMap_append]
    exact appliedOn_length_le _ _ _
  exact lockOk_step (ih (Nat.lt_of_le_of_lt hle hfew)) (storeOk (reaches_rpcs hrun)) hs hfew

end Runs

end KvSrv
end DistributedLabs
