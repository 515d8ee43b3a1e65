import DistributedLabs.KvSrv.Verdicts

/-!
# `KvSrv.Lock` — the lock built on a `Clerk`

`Lock.Acquire` and `Lock.Release` as the code runs them: sequences of Clerk calls with a branch after each.
A program point says which Clerk call comes next, or is in progress; a step of the lock system is a client
that calls `Acquire` or `Release`, or a step of the key/value service underneath (`KvSrv.Network`), where a
returning Clerk call moves its client's program point on.

Clients that hold no `Lock` are there too and may do anything with the service except Put to the lock's
key. They also stand for what a client does with its Clerk besides locking.

The lock system contains the service as it is, so every run of it is a run of the service (`lockProjection`,
`reaches_rpcs`), with the clients' own steps left out. What `KvSrv.Accounting` says of versions and calls therefore
holds here without being shown again; what is added is in `KvSrv.LockInvariant`.
-/

namespace DistributedLabs
namespace KvSrv

open Lib

/-! ## The code -/

/-- A `Lock`: its Clerk is the client's, `holderID` is what `RandValue` has drawn. -/
structure Lock where
  holderID : String
  lockname : String
deriving DecidableEq, Repr

/-- `MakeLock`, given the value `RandValue` has drawn. -/
def makeLock (holderID lockname : String) : Lock := ⟨holderID, lockname⟩

/-- Where a client is. A point inside `Acquire` or `Release` is the Clerk call it is about to make or has
    in progress. -/
inductive LockPc where
  | outside
  | acquireGet
  | acquireCreate
  | acquireGrab (version : Tversion)
  | holding
  | releaseGet
  | releasePut (version : Tversion)
deriving DecidableEq, Repr

/-- The Clerk call of a program point. -/
def LockPc.call (lk : Lock) : LockPc → Option Op
  | .outside => none
  | .acquireGet => some (.get ⟨lk.lockname⟩)
  | .acquireCreate => some (.put ⟨lk.lockname, lk.holderID, 0⟩)
  | .acquireGrab version => some (.put ⟨lk.lockname, lk.holderID, version⟩)
  | .holding => none
  | .releaseGet => some (.get ⟨lk.lockname⟩)
  | .releasePut version => some (.put ⟨lk.lockname, "", version⟩)

/-- Where the code goes with the result of a Clerk call. -/
def LockPc.resume (lk : Lock) : LockPc → Reply → LockPc
  | .acquireGet, .get r =>
      if r.err ≠ .OK then .acquireCreate
      else if r.value ≠ lk.holderID then
        -- the lock is free, or somebody else has it: sleep, then `goto GET`
        if r.value = "" then .acquireGrab r.version else .acquireGet
      else .holding
  | .acquireCreate, .put r => if r.err ≠ .OK then .acquireGet else .holding
  | .acquireGrab _, .put r => if r.err ≠ .OK then .acquireGet else .holding
  -- `Release` looks at neither the value and the error of its Get nor the result of its Put
  | .releaseGet, .get r => .releasePut r.version
  | .releasePut _, .put _ => .outside
  | pc, _ => pc

/-! ## Many clients on one lock name -/

/-- The Lock objects made on one name. -/
structure LockSetup where
  lockname : String
  lock : ClientId → Option Lock
  named : ∀ {c lk}, lock c = some lk → lk.lockname = lockname
  nonempty : ∀ {c lk}, lock c = some lk → lk.holderID ≠ ""
  distinct : ∀ {c c' lk lk'}, lock c = some lk → lock c' = some lk' → lk.holderID = lk'.holderID → c = c'

/-- Clients `0, 1, …` that have made their Lock objects with the given IDs. -/
def LockSetup.ofList (lockname : String) (ids : List String) (hnodup : ids.Nodup) (hne : "" ∉ ids) :
    LockSetup where
  lockname := lockname
  lock c := (ids[c]?).map (fun id => makeLock id lockname)
  named := by
    intro c lk h
    obtain ⟨id, _, rfl⟩ := Option.map_eq_some_iff.mp h
    rfl
  nonempty := by
    intro c lk h
    obtain ⟨id, hid, rfl⟩ := Option.map_eq_some_iff.mp h
    intro hempty
    exact hne (hempty ▸ List.mem_of_getElem? hid)
  distinct := by
    intro c c' lk lk' h h' heq
    obtain ⟨id, hid, rfl⟩ := Option.map_eq_some_iff.mp h
    obtain ⟨id', hid', rfl⟩ := Option.map_eq_some_iff.mp h'
    have hsame : id = id' := heq
    have hlt : c < ids.length := (List.getElem?_eq_some_iff.mp hid).1
    exact (List.getElem?_inj hlt hnodup).mp (hid.trans (hsame ▸ hid'.symm))

/-- The service, and where each client is. -/
structure LockState where
  net : State
  pc : ClientId → LockPc

/-- A client calls `Acquire` or `Release`, or the service takes a step. -/
inductive LockEvent where
  | acquire (c : ClientId)
  | release (c : ClientId)
  | rpc (e : Event)
deriving DecidableEq, Repr

/-- A Put to the given key. -/
def Op.writes (k : String) : Op → Bool
  | .get _ => false
  | .put args => args.key = k

/-- Whether a client may begin a Clerk call: a lock client makes the call of its program point, any other
    client makes no Put to the lock's key. -/
def LockSetup.mayInvoke (S : LockSetup) (pc : ClientId → LockPc) (c : ClientId) (op : Op) : Bool :=
  match S.lock c with
  | some lk => (pc c).call lk = some op
  | none => !op.writes S.lockname

/-- Whether the clients let the service take a step: only calls have to be allowed. -/
def LockSetup.allows (S : LockSetup) (pc : ClientId → LockPc) : Event → Bool
  | .invoke c _ op => S.mayInvoke pc c op
  | _ => true

/-- The program points after a step of the service. -/
def LockSetup.resume (S : LockSetup) (pc : ClientId → LockPc) : Event → ClientId → LockPc
  | .ret c _ _ r =>
      match S.lock c with
      | some lk => Function.update pc c ((pc c).resume lk r)
      | none => pc
  | _ => pc

/-- Only the return of its own call moves a client on. -/
theorem resume_of_not_ret {S : LockSetup} {pc : ClientId → LockPc} {e : Event} {c : ClientId}
    (h : ∀ id op r, e ≠ .ret c id op r) : S.resume pc e c = pc c := by
  cases e with
  | ret c₀ id op r =>
      have hne : c ≠ c₀ := by
        rintro rfl
        exact h id op r rfl
      cases hl : S.lock c₀ with
      | none => simp [LockSetup.resume, hl]
      | some lk => simp [LockSetup.resume, hl, hne]
  | _ => rfl

theorem resume_ret {S : LockSetup} {pc : ClientId → LockPc} {c : ClientId} {lk : Lock}
    (hl : S.lock c = some lk) (id : Nat) (op : Op) (r : Reply) :
    S.resume pc (.ret c id op r) c = (pc c).resume lk r := by
  simp [LockSetup.resume, hl]

/-- A client's own step, or one of the service. -/
inductive LockStep (S : LockSetup) : LockState → LockEvent → LockState → Prop where
  | acquire {s c lk} : S.lock c = some lk → s.pc c = .outside →
      LockStep S s (.acquire c) ⟨s.net, Function.update s.pc c .acquireGet⟩
  | release {s c lk} : S.lock c = some lk → s.pc c = .holding →
      LockStep S s (.release c) ⟨s.net, Function.update s.pc c .releaseGet⟩
  | rpc {s e net'} : Step s.net e net' → S.allows s.pc e = true →
      LockStep S s (.rpc e) ⟨net', S.resume s.pc e⟩

/-- The lock clients and the service, with nobody inside `Acquire` or `Release`. -/
def lockSys (S : LockSetup) : LTS LockState LockEvent where
  init := ⟨net.init, fun _ => .outside⟩
  step := LockStep S

/-- The step an event names, if it is possible: the executable form of `LockStep`. -/
def lockNext (S : LockSetup) (s : LockState) : LockEvent → Option LockState
  | .acquire c =>
      if (S.lock c).isSome ∧ s.pc c = .outside then some ⟨s.net, Function.update s.pc c .acquireGet⟩
      else none
  | .release c =>
      if (S.lock c).isSome ∧ s.pc c = .holding then some ⟨s.net, Function.update s.pc c .releaseGet⟩
      else none
  | .rpc e =>
      if S.allows s.pc e = true then (next s.net e).map (fun net' => ⟨net', S.resume s.pc e⟩) else none

theorem lockSys_computedBy (S : LockSetup) : (lockSys S).ComputedBy (lockNext S) := by
  intro s e s'
  constructor
  · intro h
    change LockStep S s e s' at h
    cases h with
    | acquire hl hpc => simp [lockNext, hl, hpc]
    | release hl hpc => simp [lockNext, hl, hpc]
    | @rpc e net' hs hok =>
        have hnext : next s.net e = some net' := (net_computedBy _ _ _).mp hs
        simp [lockNext, hok, hnext]
  · intro h
    cases e with
    | acquire c =>
        simp only [lockNext, Option.ite_none_right_eq_some, Option.some.injEq] at h
        obtain ⟨⟨hl, hpc⟩, rfl⟩ := h
        obtain ⟨lk, hlk⟩ := Option.isSome_iff_exists.mp hl
        exact LockStep.acquire hlk hpc
    | release c =>
        simp only [lockNext, Option.ite_none_right_eq_some, Option.some.injEq] at h
        obtain ⟨⟨hl, hpc⟩, rfl⟩ := h
        obtain ⟨lk, hlk⟩ := Option.isSome_iff_exists.mp hl
        exact LockStep.release hlk hpc
    | rpc e =>
        simp only [lockNext, Option.ite_none_right_eq_some, Option.map_eq_some_iff] at h
        obtain ⟨hok, net', hnext, rfl⟩ := h
        exact LockStep.rpc ((net_computedBy _ _ _).mpr hnext) hok

/-! ## Down to the service -/

/-- What the service sees of a step. -/
def LockEvent.rpc? : LockEvent → Option Event
  | .rpc e => some e
  | _ => none

/-- What the service sees of a run. -/
def rpcs (tr : List LockEvent) : List Event := tr.filterMap LockEvent.rpc?

@[simp] theorem rpcs_snoc_rpc (tr : List LockEvent) (e : Event) : rpcs (tr ++ [.rpc e]) = rpcs tr ++ [e] := by
  simp [rpcs, LockEvent.rpc?]

@[simp] theorem rpcs_snoc_acquire (tr : List LockEvent) (c : ClientId) :
    rpcs (tr ++ [.acquire c]) = rpcs tr := by
  simp [rpcs, LockEvent.rpc?]

@[simp] theorem rpcs_snoc_release (tr : List LockEvent) (c : ClientId) :
    rpcs (tr ++ [.release c]) = rpcs tr := by
  simp [rpcs, LockEvent.rpc?]

/-- The lock clients are clients of the service. -/
def lockProjection (S : LockSetup) : Projection (lockSys S) net where
  state := LockState.net
  label := LockEvent.rpc?
  init := rfl
  stutter := by
    intro s e s' h hl
    change LockStep S s e s' at h
    cases h with
    | acquire _ _ => rfl
    | release _ _ => rfl
    | rpc _ _ => cases hl
  step := by
    intro s e s' e' h hl
    change LockStep S s e s' at h
    cases h with
    | acquire _ _ => cases hl
    | release _ _ => cases hl
    | rpc hs _ =>
        obtain rfl := Option.some.inj hl
        exact hs

theorem reaches_rpcs {S : LockSetup} {tr : List LockEvent} {s : LockState}
    (h : Reaches (lockSys S) tr s) : Reaches net (rpcs tr) s.net :=
  (lockProjection S).reaches h

end KvSrv
end DistributedLabs
