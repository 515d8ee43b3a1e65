import DistributedLabs.Lib.Pool
import DistributedLabs.KvSrv.OnePut
import DistributedLabs.KvSrv.AppendCheck
import DistributedLabs.KvSrv.Versions

/-!
# `KvSrv.PutConcurrent` — what `CheckPutConcurrent` finds

Every Put of the loop writes an entry that names the version it carries, and the server stores it under the next
version. So what a key holds always fits its version (`EntriesOk`), whoever wrote it, and the test of `OnePut` on
the value it reads back, `e.Id != me && e.V != ver`, cannot be true. A Put with a version other than 0 comes after
a Get that found the key, so no Put is told `ErrNoKey`. Together: no client ever fails (`onePut_never_fails`).

With that, a Put that was applied was told `OK` or `ErrMaybe` by the time all clients have returned, also where
requests run late, and the sums of the clients bound the version from both sides (`applied_bounds`).

The check itself makes a Get, which takes its time like any other call. What it is told is what the server held at some
moment after it began (`get_answered`), and by then the clients had returned, so the bounds hold of that moment too
(`check_at_rest`). `checkPutConcurrent_verdict` has the outcome in every case, also the one in which the check fails:
if no client has completed a Put, there is no key for its Get to find.

## The argument

* `PuttersOk` is the invariant of the clients and the store. A step of a client goes through `PutterOk.resumed`, which
  has the whole body of the loop; a step of the service goes through `PuttersOk.store_step` and `PuttersOk.putter_step`.
* `sum_told` adds up what the clients count: it is what the returns of the run say, since each client counts what it is
  told. `applied_bounds` compares that with the Puts that were applied, by the results of `KvSrv.Versions`.
* `results_run` and `get_answered` carry both over to the moment at which the check's Get is answered.
-/

namespace DistributedLabs
namespace KvSrv

open Lib

/-! ## What the clients' keys hold -/

/-- A Put to one of the clients' keys writes an entry that names the version it carries. -/
def PutSetup.OpOk (S : PutSetup) (op : Op) : Prop :=
  ∀ args, op = .put args → S.picks args.key = true → ∃ me, args.value = S.marshal ⟨me, args.version⟩

/-- What is stored under one of the clients' keys names the version before its own. -/
def PutSetup.EntriesOk (S : PutSetup) (kv : KVServer) : Prop :=
  ∀ k entry, S.picks k = true → kv.kvStore k = some entry →
    ∃ me v, entry.value = S.marshal ⟨me, v⟩ ∧ entry.version = v + 1

/-- What a program point relies on. -/
def PutSetup.PcOk (S : PutSetup) (kv : KVServer) : PutPc → Prop
  | .put k ver => S.picks k = true ∧ (ver ≠ 0 → kv.kvStore k ≠ none)
  | .get k _ err => S.picks k = true ∧ kv.kvStore k ≠ none ∧ (err = .OK ∨ err = .ErrVersion ∨ err = .ErrMaybe)
  | .failed => False
  | _ => True

/-- The server's answers to the Clerk call of a program point. -/
def PutSetup.ReplyOk (S : PutSetup) (kv : KVServer) : PutPc → Reply → Prop
  | .put k _, .put r => (r.err = .OK ∨ r.err = .ErrVersion) ∧ kv.kvStore k ≠ none
  | .get _ _ _, .get r => ∃ me v, S.getJson r = some (v + 1, ⟨me, v⟩)
  | _, _ => False

/-- A client with its call. -/
structure PutterOk (S : PutSetup) (kv : KVServer) (c : ClientId) (call : Option Call) (a : Putter) : Prop where
  pc : S.PcOk kv a.pc
  verm : ∀ k, a.verm k ≠ 0 → kv.kvStore k ≠ none
  op : ∀ x, call = some x → S.call c a.pc = some x.op
  reply : ∀ x r, call = some x → x.attempt = .served r → S.ReplyOk kv a.pc r

/-- What holds between the steps: of the store, of the requests that are out late, and of every client. -/
structure PuttersOk (S : PutSetup) (s : PutState) : Prop where
  store : S.EntriesOk s.net.kv
  late : ∀ id op, (id, op) ∈ s.net.late → S.OpOk op
  putter : ∀ c, c < S.nclnt → PutterOk S s.net.kv c (s.net.calls c) (s.client c)
  others : ∀ c x args, ¬ c < S.nclnt → s.net.calls c = some x → x.op = .put args → S.picks args.key = false

/-! ## One step -/

section Safety

variable {S : PutSetup} {kv kv' : KVServer} {c : ClientId} {a : Putter} {pc : PutPc}

theorem PutSetup.PcOk.mono (h : S.PcOk kv pc) (hkv : ∀ k, kv.kvStore k ≠ none → kv'.kvStore k ≠ none) :
    S.PcOk kv' pc := by
  cases pc with
  | put k ver => exact ⟨h.1, fun hver => hkv k (h.2 hver)⟩
  | get k ver err => exact ⟨h.1, hkv k h.2.1, h.2.2⟩
  | failed => exact h.elim
  | _ => trivial

theorem PutSetup.ReplyOk.mono {r : Reply} (h : S.ReplyOk kv pc r)
    (hkv : ∀ k, kv.kvStore k ≠ none → kv'.kvStore k ≠ none) : S.ReplyOk kv' pc r := by
  cases pc with
  | put k ver =>
      cases r with
      | put r => exact ⟨h.1, hkv k h.2⟩
      | get r => exact h.elim
  | get k ver err =>
      cases r with
      | put r => exact h.elim
      | get r => exact h
  | _ => exact h.elim

/-- The Put of a program point writes what it should. -/
theorem PutSetup.opOk_call {op : Op} (h : S.call c pc = some op) : S.OpOk op := by
  rintro args rfl _
  cases pc with
  | put k ver =>
      simp only [PutSetup.call, Option.some.injEq, Op.put.injEq] at h
      subst h
      exact ⟨c, rfl⟩
  | _ => simp [PutSetup.call] at h

/-- What the server answers to the Clerk call of a program point. A Put to a missing key carries version 0, so it
    is applied. -/
theorem PutSetup.replyOk_dispatch {op : Op} (hstore : S.EntriesOk kv) (hpc : S.PcOk kv pc)
    (hop : S.call c pc = some op) : S.ReplyOk (kv.dispatch op).1 pc (kv.dispatch op).2 := by
  cases pc with
  | put k ver =>
      obtain rfl := Option.some.inj hop
      by_cases hcur : ver = kv.currentVersion k
      · have hput : kv.put ⟨k, S.marshal ⟨c, ver⟩, ver⟩ = _ := put_of_current hcur
        simp [KVServer.dispatch, hput, PutSetup.ReplyOk]
      · have hput : kv.put ⟨k, S.marshal ⟨c, ver⟩, ver⟩ = _ := put_of_not_current hcur
        have hpresent : kv.kvStore k ≠ none := by
          by_cases hver : ver = 0
          · intro habsent
            exact hcur (by simp [hver, KVServer.currentVersion, habsent])
          · exact hpc.2 hver
        simp [KVServer.dispatch, hput, PutSetup.ReplyOk, hpresent]
  | get k ver err =>
      obtain rfl := Option.some.inj hop
      obtain ⟨entry, hentry⟩ := Option.ne_none_iff_exists'.mp hpc.2.1
      obtain ⟨me, v, hvalue, hversion⟩ := hstore k entry hpc.1 hentry
      refine ⟨me, v, ?_⟩
      simp [KVServer.get, hentry, PutSetup.getJson, hvalue, hversion, S.roundTrip]
  | _ => simp [PutSetup.call] at hop

/-- Where the code goes with the answer of its call: none of its `Fatalf` is reached. -/
inductive Resumed (S : PutSetup) (kv : KVServer) (a : Putter) : Op → Reply → Putter → Prop where
  | told {k ver err args} : args.key = k → S.picks k = true → kv.kvStore k ≠ none →
      (err = .OK ∨ err = .ErrVersion ∨ err = .ErrMaybe) → a.pc = .put k ver →
      Resumed S kv a (.put args) (.put ⟨err⟩) { a with pc := .get k ver err }
  | done {k ver err args r ver0} : kv.kvStore k ≠ none → a.pc = .get k ver err → (err = .OK ∨ err = .ErrMaybe) →
      Resumed S kv a (.get args) (.get r) (a.count k ver0 (err = .OK))
  | again {k ver args r ver0} : S.picks k = true → kv.kvStore k ≠ none → a.pc = .get k ver .ErrVersion →
      Resumed S kv a (.get args) (.get r) { a with pc := .put k ver0 }

/-- A client whose call returns goes on as the code should. -/
theorem PutterOk.resumed {x : Call} {r : Reply} (h : PutterOk S kv c (some x) a) (hr : x.attempt = .served r) :
    Resumed S kv a x.op (clerkResult x.retried r) (S.resume c a (clerkResult x.retried r)) := by
  have hreply := h.reply x r rfl hr
  have hop := h.op x rfl
  have hok := h.pc
  rcases hpc : a.pc with _ | ⟨k, ver⟩ | ⟨k, ver, err⟩ | _ | _
  · simp [hpc, PutSetup.call] at hop
  · rw [hpc] at hreply hop hok
    obtain ⟨hk, _⟩ := hok
    rw [← Option.some.inj hop]
    cases r with
    | get r => exact hreply.elim
    | put r =>
        obtain ⟨herr, hpresent⟩ := hreply
        have htold : putResult x.retried r = .OK ∨ putResult x.retried r = .ErrVersion
            ∨ putResult x.retried r = .ErrMaybe := by
          rcases herr with herr | herr <;> cases x.retried <;> simp [putResult, herr]
        have hnext : S.resume c a (clerkResult x.retried (.put r))
            = { a with pc := .get k ver (putResult x.retried r) } := by
          simp [clerkResult, PutSetup.resume, hpc, afterPut, htold]
        rw [hnext]
        exact .told rfl hk hpresent htold hpc
  · rw [hpc] at hreply hop hok
    obtain ⟨hk, hpresent, herr⟩ := hok
    rw [← Option.some.inj hop]
    cases r with
    | put r => exact hreply.elim
    | get r =>
        obtain ⟨me, v, hjson⟩ := hreply
        -- the version read back fits the entry, so the entry names `ver` if the version is the one after it
        have hmine : ¬ ((err = .OK ∧ v + 1 = ver + 1) ∧ me ≠ (c : Int) ∧ v ≠ ver) := by
          rintro ⟨⟨_, hver⟩, _, hne⟩
          exact hne (by simpa using hver)
        have hnext : S.resume c a (clerkResult x.retried (.get r))
            = if err = .OK ∨ err = .ErrMaybe then a.count k (v + 1) (err = .OK)
              else { a with pc := .put k (v + 1) } := by
          simp only [clerkResult, PutSetup.resume, hpc, PutSetup.afterGet, hjson, if_neg hmine]
        rw [hnext]
        by_cases hdone : err = .OK ∨ err = .ErrMaybe
        · rw [if_pos hdone]
          exact .done hpresent hpc hdone
        · rw [if_neg hdone]
          obtain rfl : err = .ErrVersion := by
            rcases herr with rfl | rfl | rfl <;> simp at hdone ⊢
          exact .again hk hpresent hpc
  · simp [hpc, PutSetup.call] at hop
  · simp [hpc, PutSetup.call] at hop

theorem Resumed.putterOk {op : Op} {r : Reply} {a' : Putter} (h : Resumed S kv a op r a')
    (hverm : ∀ k, a.verm k ≠ 0 → kv.kvStore k ≠ none) : PutterOk S kv c none a' := by
  cases h with
  | told _ hk hpresent herr _ => exact ⟨⟨hk, hpresent, herr⟩, hverm, by simp, by simp⟩
  | @done k ver err _ _ ver0 hpresent _ _ =>
      refine ⟨trivial, fun k' hne => ?_, by simp, by simp⟩
      by_cases hkk : k' = k
      · exact hkk ▸ hpresent
      · refine hverm k' ?_
        simpa [Putter.count, hkk] using hne
  | again hk hpresent _ => exact ⟨⟨hk, fun _ => hpresent⟩, hverm, by simp, by simp⟩

variable {s s' : PutState} {t' : State} {e : Event}

/-- Nobody's call writes anything else. -/
theorem PuttersOk.calls (h : PuttersOk S s) {x : Call} (hc : s.net.calls c = some x) : S.OpOk x.op := by
  by_cases hlt : c < S.nclnt
  · exact S.opOk_call ((h.putter c hlt).op x hc)
  · intro args hop hk
    rw [h.others c x args hlt hc hop] at hk
    cases hk

/-- An applied Put keeps the store fitting. -/
theorem PuttersOk.store_step (h : PuttersOk S s) (hs : Step s.net e t') : S.EntriesOk t'.kv := by
  intro k entry hk hentry
  rcases step_store hs with ⟨id, args, ha, _, hkv⟩ | ⟨_, hkv⟩
  · rw [hkv] at hentry
    by_cases heq : k = args.key
    · subst heq
      have hop : S.OpOk (.put args) := by
        rcases step_applied hs ha with ⟨c, x, hc, _, _, hop, _⟩ | ⟨hl, _⟩
        · rw [← hop]
          exact h.calls hc
        · exact h.late id _ hl
      obtain ⟨me, hvalue⟩ := hop args rfl hk
      rw [set_kvStore_self] at hentry
      obtain rfl := Option.some.inj hentry
      exact ⟨me, args.version, hvalue, rfl⟩
    · rw [set_kvStore_ne heq] at hentry
      exact h.store k entry hk hentry
  · rw [hkv] at hentry
    exact h.store k entry hk hentry

/-- A client's call makes a move while the client waits. -/
theorem PutterOk.move (h : PutterOk S s.net.kv c (s.net.calls c) a) (hstore : S.EntriesOk s.net.kv)
    (hs : Step s.net e t') (hnew : ∀ id op, e = .invoke c id op → S.call c a.pc = some op) :
    PutterOk S t'.kv c (t'.calls c) a := by
  have hkv : ∀ k, s.net.kv.kvStore k ≠ none → t'.kv.kvStore k ≠ none := fun k => step_present hs
  have hop : ∀ x, t'.calls c = some x → S.call c a.pc = some x.op := by
    intro x hx
    rcases step_calls hs hx with ⟨op, he, rfl, _⟩ | ⟨x₀, hx₀, hmove⟩
    · exact hnew _ op he
    · rw [hmove.op_eq]
      exact h.op x₀ hx₀
  refine ⟨h.pc.mono hkv, fun k hk => hkv k (h.verm k hk), hop, ?_⟩
  intro x r hx hr
  rcases step_calls hs hx with ⟨op, _, rfl, _⟩ | ⟨x₀, hx₀, hmove⟩
  · cases hr
  · cases hmove with
    | same => exact (h.reply x r hx₀ hr).mono hkv
    | resent => cases hr
    | served hatt he =>
        obtain rfl := Attempt.served.inj hr
        subst he
        obtain ⟨_, _, _, _, _, _, rfl⟩ := step_serve hs
        exact S.replyOk_dispatch hstore h.pc (h.op x₀ hx₀)

/-- A step of the service keeps the clients going. -/
theorem PuttersOk.putter_step (h : PuttersOk S s) (hs : Step s.net e t') (hallow : S.allows s.client e = true)
    (hc : c < S.nclnt) : PutterOk S t'.kv c (t'.calls c) (S.resumeAll s.client e c) := by
  by_cases hret : ∃ id op r, e = .ret c id op r
  · obtain ⟨id, op, r, rfl⟩ := hret
    obtain ⟨x, r₀, hx, hatt, _, _, rfl, rfl⟩ := step_ret hs
    have hok := h.putter c hc
    rw [hx] at hok
    rw [S.resumeAll_self hc, setCall_kv, setCall_calls_self]
    exact (hok.resumed hatt).putterOk hok.verm
  · rw [S.resumeAll_ne (fun id op r heq => hret ⟨id, op, r, heq⟩)]
    refine (h.putter c hc).move h.store hs ?_
    rintro id op rfl
    simpa [PutSetup.allows, hc] using hallow

theorem PuttersOk.late_step (h : PuttersOk S s) (hs : Step s.net e t') (id : Nat) (op : Op)
    (hl : (id, op) ∈ t'.late) : S.OpOk op := by
  rcases step_late hs hl with hl | ⟨c, x, hx, _, rfl, _⟩
  · exact h.late id op hl
  · exact h.calls hx

theorem PuttersOk.others_step (h : PuttersOk S s) (hs : Step s.net e t') (hallow : S.allows s.client e = true)
    {x : Call} {args : PutArgs} (hc : ¬ c < S.nclnt) (hx : t'.calls c = some x) (hop : x.op = .put args) :
    S.picks args.key = false := by
  rcases step_calls hs hx with ⟨op, rfl, rfl, _⟩ | ⟨x₀, hx₀, hmove⟩
  · obtain rfl : op = .put args := hop
    simpa [PutSetup.allows, hc] using hallow
  · exact h.others c x₀ args hc hx₀ (hmove.op_eq.symm.trans hop)

/-- A client at its `select` goes somewhere else. -/
theorem PuttersOk.goto (h : PuttersOk S s) (hsel : (s.client c).pc = .select) (hpc : S.PcOk s.net.kv pc) :
    PuttersOk S (s.goto c pc) := by
  refine ⟨h.store, h.late, fun c' hc' => ?_, h.others⟩
  have hok := h.putter c' hc'
  by_cases heq : c' = c
  · subst heq
    have hnone : s.net.calls c' = none := by
      rw [Option.eq_none_iff_forall_not_mem]
      intro x hx
      have hop := hok.op x hx
      simp [hsel, PutSetup.call] at hop
    simp only [PutState.goto, Function.update_self, hnone]
    exact ⟨hpc, hok.verm, by simp, by simp⟩
  · simpa [PutState.goto, heq] using hok

/-- **One step** of a client or of the service keeps all of it. -/
theorem puttersOk_step {e : PutEvent} (h : PuttersOk S s) (hs : PutStep S s e s') : PuttersOk S s' := by
  cases hs with
  | @iterate c k hc hpc hk =>
      refine h.goto hpc ⟨hk, fun hver => ?_⟩
      exact (h.putter c hc).verm k hver
  | stop _ hpc => exact h.goto hpc trivial
  | @rpc e t' hs hallow =>
      exact ⟨h.store_step hs, h.late_step hs, fun _ => h.putter_step hs hallow,
        fun _ _ _ hc => h.others_step hs hallow hc⟩

theorem puttersOk_init (S : PutSetup) : PuttersOk S (putSys S).init :=
  { store := fun k entry _ h => by simp [putSys, net] at h
    late := fun id op h => by simp [putSys, net] at h
    putter := fun c _ => ⟨trivial, fun k h => absurd rfl h, by simp [putSys, net], by simp [putSys, net]⟩
    others := fun c x args _ h => by simp [putSys, net] at h }

/-- **The invariant of every run.** It needs no bound: versions may come round and requests run late. -/
theorem puttersOk {tr : List PutEvent} (h : Reaches (putSys S) tr s) : PuttersOk S s :=
  Reaches.invariant (P := fun _ s => PuttersOk S s) (puttersOk_init S) (fun _ _ _ _ _ ih hs => puttersOk_step ih hs) h

/-- **The clients never fail.** No Put of theirs is told anything but `OK`, `ErrVersion` and `ErrMaybe`, every Get
after it finds an entry, and the entry is never a wrong value. -/
theorem onePut_never_fails {S : PutSetup} {s : PutState} {tr : List PutEvent} (hrun : Reaches (putSys S) tr s)
    {c : ClientId} (hc : c < S.nclnt) : (s.client c).pc ≠ .failed := by
  intro hpc
  have hok := ((puttersOk hrun).putter c hc).pc
  rw [hpc] at hok
  exact hok

end Safety

/-! ## Returns of the service -/

section Returns

variable {tr : List Event} {s : State} {k : String}

/-- A call is told one thing. -/
theorem ret_unique (hrun : Reaches net tr s) {c c' : ClientId} {id : Nat} {op op' : Op} {r r' : Reply}
    (h : .ret c id op r ∈ tr) (h' : .ret c' id op' r' ∈ tr) : r = r' := by
  refine Reaches.invariant (P := fun tr _ => ∀ {c c' op op' r r'}, Event.ret c id op r ∈ tr →
    Event.ret c' id op' r' ∈ tr → r = r') (by simp) ?_ hrun h h'
  intro tr s e s' hrun ih hs c c' op op' r r' h h'
  -- a call that has returned is not in progress
  have hnew : ∀ {c c' op op' r r'}, Event.ret c id op r ∈ tr → Event.ret c' id op' r' ∉ [e] := by
    intro c c' op op' r r' hold hmem
    obtain rfl := List.mem_singleton.mp hmem
    obtain ⟨x, _, hx, _, hid, _⟩ := step_ret hs
    exact (verdictOk hrun).done hold hx hid
  rcases List.mem_append.mp h with h | h <;> rcases List.mem_append.mp h' with h' | h'
  · exact ih h h'
  · exact absurd h' (hnew h)
  · exact absurd h (hnew h')
  · obtain rfl := List.mem_singleton.mp h
    obtain ⟨_, _, _, hr⟩ := Event.ret.inj (List.mem_singleton.mp h')
    exact hr.symm

/-- Calls that were told `OK` and calls that were told `ErrMaybe` are different calls. -/
theorem returns_le_putCalls (hrun : Reaches net tr s) (k : String) :
    (putReturns tr k .OK).length + (putReturns tr k .ErrMaybe).length ≤ (putCalls tr k).length := by
  have hdisjoint : List.Disjoint (putReturns tr k .OK) (putReturns tr k .ErrMaybe) := by
    intro id hok hmaybe
    obtain ⟨_, _, _, hok⟩ := mem_putReturns.mp hok
    obtain ⟨_, _, _, hmaybe⟩ := mem_putReturns.mp hmaybe
    have heq := ret_unique hrun hok hmaybe
    cases heq
  have hsub : putReturns tr k .OK ++ putReturns tr k .ErrMaybe ⊆ putCalls tr k := by
    intro id hid
    have hret : ∃ c args r, args.key = k ∧ .ret c id (.put args) r ∈ tr := by
      rcases List.mem_append.mp hid with hid | hid <;>
      · obtain ⟨c, args, hkey, hret⟩ := mem_putReturns.mp hid
        exact ⟨c, args, _, hkey, hret⟩
    obtain ⟨c, args, r, rfl, hret⟩ := hret
    exact mem_putCalls ((verdictOk hrun).retInvoked hret)
  have hnodup := (putReturns_nodup hrun k .OK).append (putReturns_nodup hrun k .ErrMaybe) hdisjoint
  have hle := (hnodup.subperm hsub).length_le
  rwa [List.length_append] at hle

/-- `Call` returns false. -/
def Event.lost : Event → Bool
  | .drop _ => true
  | .lose _ => true
  | .abandon _ => true
  | _ => false

/-- On a reliable network nobody sends twice. -/
theorem not_retried (hrun : Reaches net tr s) (hreliable : ∀ e ∈ tr, e.lost = false) {c : ClientId} {x : Call}
    (hx : s.calls c = some x) : x.retried = false := by
  refine Reaches.invariant (P := fun tr s => (∀ e ∈ tr, e.lost = false) → ∀ {c x}, s.calls c = some x →
    x.retried = false) (by simp [net]) ?_ hrun hreliable hx
  intro tr s e s' _ ih hs hreliable c x hx
  have ih := fun {c x} => ih (fun e he => hreliable e (List.mem_append_left _ he)) (c := c) (x := x)
  have hlast : e.lost = false := hreliable e (List.mem_append_right _ (List.mem_singleton_self e))
  cases hs with
  | invoke _ =>
      rcases update_cases hx with ⟨_, hnew⟩ | ⟨_, hold⟩
      · rw [← Option.some.inj hnew]
      · exact ih hold
  | serve hc _ =>
      rcases update_cases hx with ⟨_, hnew⟩ | ⟨_, hold⟩
      · have hkept := ih hc
        rw [← Option.some.inj hnew]
        exact hkept
      · exact ih hold
  -- these three are how a `Call` returns false
  | drop _ _ => cases hlast
  | lose _ _ => cases hlast
  | abandon _ _ => cases hlast
  | serveLate _ => exact ih hx
  | ret _ _ =>
      rcases update_cases hx with ⟨_, hnew⟩ | ⟨_, hold⟩
      · cases hnew
      · exact ih hold

/-- On a reliable network nobody is told `ErrMaybe`. -/
theorem no_errMaybe (hrun : Reaches net tr s) (hreliable : ∀ e ∈ tr, e.lost = false) (k : String) :
    putReturns tr k .ErrMaybe = [] := by
  rw [List.eq_nil_iff_forall_not_mem]
  intro id hid
  obtain ⟨c, args, _, hret⟩ := mem_putReturns.mp hid
  obtain ⟨pre, post, rfl⟩ := List.append_of_mem hret
  obtain ⟨s₁, _, hpre, hs, _⟩ := Run.split_cons hrun
  obtain ⟨x, r, hx, hatt, _, hop, hres, _⟩ := step_ret hs
  have hfirst := not_retried hpre (fun e he => hreliable e (List.mem_append_left _ he)) hx
  obtain ⟨_, _, s₀, _, _, rfl⟩ := serve_reply hpre ((repliesOk hpre).served hx hatt)
  rw [hop, hfirst] at hres
  -- the server itself never says so
  by_cases hv : args.version = s₀.kv.currentVersion args.key
  · simp [KVServer.dispatch, put_of_current hv, clerkResult, putResult] at hres
  · by_cases hk : s₀.kv.kvStore args.key = none <;>
      simp [KVServer.dispatch, put_of_not_current hv, clerkResult, putResult, hk] at hres

end Returns

/-! ## What the clients count -/

/-- How often a client was told `OK`, or `ErrMaybe`: what it has counted, and the Put whose Get is not back yet. -/
def Putter.told (err : Err) (a : Putter) : Nat :=
  (if err = .OK then a.res.nok else a.res.nmaybe)
    + (match a.pc with
      | .get _ _ err' => if err' = err then 1 else 0
      | _ => 0)

section Counting

variable {S : PutSetup} {kv : KVServer} {c : ClientId} {a a' : Putter} {k : String} {err : Err}

/-- A client counts what it is told. -/
theorem Resumed.told_eq (c : ClientId) (id : Nat) {op : Op} {r : Reply} (hone : ∀ k', S.picks k' = true ↔ k' = k)
    (h : Resumed S kv a op r a') (herr : err = .OK ∨ err = .ErrMaybe) :
    a'.told err = a.told err + ((Event.ret c id op r).putReturn k err).toList.length := by
  cases h with
  | @told k' ver err' args hkey hk _ _ hpc =>
      obtain rfl := (hone k').mp hk
      by_cases heq : err' = err <;> simp [Putter.told, Event.putReturn, hpc, hkey, heq]
  | @done k' ver err' _ _ ver0 _ hpc hdone =>
      rcases herr with rfl | rfl <;> rcases hdone with rfl | rfl <;>
        simp [Putter.told, Putter.count, Event.putReturn, hpc]
  | again _ _ hpc => rcases herr with rfl | rfl <;> simp [Putter.told, Event.putReturn, hpc]

variable {s s' : PutState} {t' : State}

theorem clients_get? (s : PutState) (hc : c < S.nclnt) : (s.clients S)[c]? = some (s.client c) := by
  simp [PutState.clients, hc]

/-- One client of the pool takes a step. -/
theorem clients_update (S : PutSetup) (s : PutState) (t' : State) (c : ClientId) (a : Putter) :
    PutState.clients S ⟨t', Function.update s.client c a⟩ = (s.clients S).set c a :=
  map_range_update s.client c a S.nclnt

/-- A return on the clients' key is a client's. -/
theorem PuttersOk.client_of_ret {id : Nat} {args : PutArgs} {r : Reply} (h : PuttersOk S s)
    (hs : Step s.net (.ret c id (.put args) r) t') (hk : S.picks args.key = true) : c < S.nclnt := by
  by_contra hc
  obtain ⟨x, _, hx, _, _, hop, _⟩ := step_ret hs
  rw [h.others c x args hc hx hop] at hk
  cases hk

/-- What a client's call is told. -/
theorem PuttersOk.resumed {id : Nat} {op : Op} {r : Reply} (h : PuttersOk S s) (hs : Step s.net (.ret c id op r) t')
    (hc : c < S.nclnt) : Resumed S s.net.kv (s.client c) op r (S.resume c (s.client c) r) := by
  obtain ⟨x, r₀, hx, hatt, _, rfl, rfl, _⟩ := step_ret hs
  have hok := h.putter c hc
  rw [hx] at hok
  exact hok.resumed hatt

/-- The sum of what the clients were told moves with the Puts that return. -/
theorem sum_told_step {e : PutEvent} (hone : ∀ k', S.picks k' = true ↔ k' = k) (h : PuttersOk S s)
    (hs : PutStep S s e s') (herr : err = .OK ∨ err = .ErrMaybe) :
    ((s'.clients S).map (Putter.told err)).sum =
      ((s.clients S).map (Putter.told err)).sum + ((e.rpc?.bind (Event.putReturn k err)).toList).length := by
  -- a client at its `select` goes somewhere else
  have hgoto : ∀ {c : ClientId} {pc : PutPc}, c < S.nclnt → (s.client c).pc = .select →
      (∀ k ver err, pc ≠ .get k ver err) →
      (((s.goto c pc).clients S).map (Putter.told err)).sum = ((s.clients S).map (Putter.told err)).sum := by
    intro c pc hc hsel hpc
    have hset := sum_map_set (w := Putter.told err) (clients_get? s hc) { s.client c with pc := pc }
    have hsame : Putter.told err { s.client c with pc := pc } = (s.client c).told err := by
      cases pc with
      | get k ver err => exact absurd rfl (hpc k ver err)
      | _ => simp [Putter.told, hsel]
    have hclients := clients_update S s s.net c { s.client c with pc := pc }
    unfold PutState.goto
    rw [hclients]
    omega
  cases hs with
  | iterate hc hsel _ => simpa [PutEvent.rpc?] using hgoto hc hsel (by simp)
  | stop hc hsel => simpa [PutEvent.rpc?] using hgoto hc hsel (by simp)
  | @rpc e t' hs hallow =>
      simp only [PutEvent.rpc?, Option.bind_some]
      cases e with
      | ret c id op r =>
          by_cases hc : c < S.nclnt
          · have htold := (h.resumed hs hc).told_eq c id hone herr
            have hset := sum_map_set (w := Putter.told err) (clients_get? s hc) (S.resume c (s.client c) r)
            simp only [PutSetup.resumeAll, hc, if_true]
            rw [clients_update]
            omega
          · have hnone : (Event.ret c id op r).putReturn k err = none := by
              by_contra hne
              obtain ⟨id', hid⟩ := Option.ne_none_iff_exists'.mp hne
              obtain ⟨c', args, hkey, heq⟩ := putReturn_eq_some.mp hid
              obtain ⟨rfl, rfl, rfl, rfl⟩ := Event.ret.inj heq
              exact hc (h.client_of_ret hs ((hone args.key).mpr hkey))
            simp [PutSetup.resumeAll, hc, hnone, PutState.clients]
      | _ => simp [PutSetup.resumeAll, Event.putReturn, PutState.clients]

variable {tr : List PutEvent}

theorem putRpcs_snoc (tr : List PutEvent) (e : PutEvent) : putRpcs (tr ++ [e]) = putRpcs tr ++ e.rpc?.toList :=
  filterMap_snoc PutEvent.rpc? tr e

/-- The clients have been told what the returns of the run say. -/
theorem sum_told (hone : ∀ k', S.picks k' = true ↔ k' = k) (hrun : Reaches (putSys S) tr s)
    (herr : err = .OK ∨ err = .ErrMaybe) :
    ((s.clients S).map (Putter.told err)).sum = (putReturns (putRpcs tr) k err).length := by
  refine Reaches.invariant (P := fun tr s => ((s.clients S).map (Putter.told err)).sum
    = (putReturns (putRpcs tr) k err).length) ?_ ?_ hrun
  · refine sum_map_eq_zero (fun i p hp => ?_)
    have hp := List.mem_of_getElem? hp
    simp only [PutState.clients, putSys, List.mem_map] at hp
    obtain ⟨_, _, rfl⟩ := hp
    simp [Putter.told]
  · intro tr s e s' hrun ih hs
    have hsnoc : putReturns (putRpcs (tr ++ [e])) k err
        = putReturns (putRpcs tr) k err ++ (e.rpc?.bind (Event.putReturn k err)).toList := by
      rw [putRpcs_snoc]
      cases e.rpc? with
      | none => simp
      | some e => exact filterMap_snoc (Event.putReturn k err) _ e
    rw [sum_told_step hone (puttersOk hrun) hs herr, ih, hsnoc, List.length_append]

/-- A Put to a client's key is told `OK`, `ErrVersion` or `ErrMaybe`, and the key is there from then on. -/
theorem ret_told (hrun : Reaches (putSys S) tr s) {id : Nat} {args : PutArgs} {r : Reply}
    (hret : .ret c id (.put args) r ∈ putRpcs tr) (hk : S.picks args.key = true) :
    r ≠ .put ⟨.ErrNoKey⟩ ∧ s.net.kv.kvStore args.key ≠ none := by
  refine Reaches.invariant (P := fun tr s => .ret c id (.put args) r ∈ putRpcs tr →
    r ≠ .put ⟨.ErrNoKey⟩ ∧ s.net.kv.kvStore args.key ≠ none) (by simp [putRpcs]) ?_ hrun hret
  intro tr s e s' hrun ih hs hret
  rw [putRpcs_snoc, List.mem_append] at hret
  rcases hret with hret | hret
  · obtain ⟨hne, hpresent⟩ := ih hret
    refine ⟨hne, ?_⟩
    cases hs with
    | iterate _ _ _ => exact hpresent
    | stop _ _ => exact hpresent
    | rpc hs _ => exact step_present hs hpresent
  · cases hs with
    | iterate _ _ _ => simp [PutEvent.rpc?] at hret
    | stop _ _ => simp [PutEvent.rpc?] at hret
    | @rpc e t' hs _ =>
        obtain rfl : Event.ret c id (.put args) r = e := by simpa [PutEvent.rpc?] using hret
        have hok := puttersOk hrun
        obtain ⟨_, _, _, _, _, _, _, rfl⟩ := step_ret hs
        -- the return is a client's, and what a client is told is known
        have hnext := hok.resumed hs (hok.client_of_ret hs hk)
        generalize S.resume c (s.client c) r = a' at hnext
        cases hnext with
        | told hkey _ hpresent herr _ =>
            subst hkey
            refine ⟨?_, hpresent⟩
            rcases herr with rfl | rfl | rfl <;> simp

theorem foldl_add (rs : List ClntRes) (res : ClntRes) :
    rs.foldl ClntRes.add res = ⟨res.nok + (rs.map ClntRes.nok).sum, res.nmaybe + (rs.map ClntRes.nmaybe).sum⟩ := by
  induction rs generalizing res with
  | nil => simp
  | cons r rs ih => simp [ih, ClntRes.add, Nat.add_assoc]

/-- The sums `CheckPutConcurrent` makes. -/
def PutState.sums (S : PutSetup) (s : PutState) : ClntRes := (s.results S).foldl ClntRes.add ⟨0, 0⟩

/-- Clients that have returned have counted everything they were told. -/
theorem sums_eq (hone : ∀ k', S.picks k' = true ↔ k' = k) (hrun : Reaches (putSys S) tr s)
    (hrest : ∀ c, c < S.nclnt → (s.client c).pc = .returned) :
    s.sums S = ⟨(putReturns (putRpcs tr) k .OK).length, (putReturns (putRpcs tr) k .ErrMaybe).length⟩ := by
  have hat : ∀ a ∈ s.clients S, a.pc = .returned := by
    intro a ha
    obtain ⟨c, hc, rfl⟩ := List.mem_map.mp ha
    exact hrest c (List.mem_range.mp hc)
  have hok : ((s.results S).map ClntRes.nok).sum = ((s.clients S).map (Putter.told .OK)).sum := by
    unfold PutState.results
    rw [List.map_map]
    exact congrArg List.sum (List.map_congr_left (fun a ha => by simp [Putter.told, hat a ha]))
  have hmaybe : ((s.results S).map ClntRes.nmaybe).sum = ((s.clients S).map (Putter.told .ErrMaybe)).sum := by
    unfold PutState.results
    rw [List.map_map]
    exact congrArg List.sum (List.map_congr_left (fun a ha => by simp [Putter.told, hat a ha]))
  unfold PutState.sums
  rw [foldl_add, hok, hmaybe, sum_told hone hrun (Or.inl rfl), sum_told hone hrun (Or.inr rfl)]
  simp

/-- When all clients have returned, the Puts applied on the key lie between the `OK`s and the `OK`s and `ErrMaybe`s,
    and there is at least one if a client has put anything. -/
theorem applied_bounds (hone : ∀ k', S.picks k' = true ↔ k' = k) (hrun : Reaches (putSys S) tr s)
    (hfew : (putCalls (putRpcs tr) k).length < 2 ^ 64)
    (hrest : ∀ c, c < S.nclnt → (s.client c).pc = .returned) :
    (s.sums S).nok ≤ (appliedOn (putRpcs tr) k).length
      ∧ (appliedOn (putRpcs tr) k).length ≤ (s.sums S).nok + (s.sums S).nmaybe
      ∧ (s.sums S).nok + (s.sums S).nmaybe < 2 ^ 64
      ∧ (0 < (s.sums S).nok + (s.sums S).nmaybe → 0 < (appliedOn (putRpcs tr) k).length) := by
  have hnet := putRpcs_reaches hrun
  have hle := appliedOn_le_putCalls hnet hfew
  have hreturns := returns_le_putCalls hnet k
  have hpicked : S.picks k = true := (hone k).mpr rfl
  rw [sums_eq hone hrun hrest]
  refine ⟨okReturns_le hnet, ?_, Nat.lt_of_le_of_lt hreturns hfew, fun hpos => ?_⟩
  · refine appliedOn_le_returns_of hnet (Nat.lt_of_le_of_lt hle hfew) ?_ ?_
    · rintro c id args hret rfl
      exact absurd rfl (ret_told hrun hret hpicked).1
    -- no call on the key is in progress: the clients have returned, and others do not touch it
    · rintro c x args hx hop rfl
      by_cases hc : c < S.nclnt
      · have hcall := ((puttersOk hrun).putter c hc).op x hx
        simp [hrest c hc, PutSetup.call] at hcall
      · have hnot := (puttersOk hrun).others c x args hc hx hop
        rw [hpicked] at hnot
        cases hnot
  · have hret : ∃ c id args r, args.key = k ∧ .ret c id (.put args) r ∈ putRpcs tr := by
      rcases Nat.add_pos_iff_pos_or_pos.mp hpos with hpos | hpos <;>
      · obtain ⟨id, hid⟩ := List.exists_mem_of_length_pos hpos
        obtain ⟨c, args, hkey, hret⟩ := mem_putReturns.mp hid
        exact ⟨c, id, args, _, hkey, hret⟩
    obtain ⟨c, id, args, r, rfl, hret⟩ := hret
    exact ((storeOk hnet).present_iff args.key).mp (ret_told hrun hret hpicked).2

end Counting

/-! ## The check -/

section Check

variable {S : PutSetup} {s s' : PutState} {tr tr' : List PutEvent} {c : ClientId} {k : String}

/-- What `GetJson` gets to see of the clients' key. -/
theorem getJson_get (hrun : Reaches (putSys S) tr s) (hk : S.picks k = true) :
    (0 < (appliedOn (putRpcs tr) k).length →
      ∃ e, S.getJson (s.net.kv.get ⟨k⟩) = some (UInt64.ofNat (appliedOn (putRpcs tr) k).length, e))
    ∧ ((appliedOn (putRpcs tr) k).length = 0 → S.getJson (s.net.kv.get ⟨k⟩) = none) := by
  have hstore := storeOk (putRpcs_reaches hrun)
  constructor
  · intro hpos
    obtain ⟨entry, hentry⟩ := Option.ne_none_iff_exists'.mp ((hstore.present_iff k).mpr hpos)
    obtain ⟨me, v, hvalue, _⟩ := (puttersOk hrun).store k entry hk hentry
    have hversion := hstore.currentVersion k
    simp only [KVServer.currentVersion, hentry, Option.map_some, Option.getD_some] at hversion
    exact ⟨⟨me, v⟩, by simp [PutSetup.getJson, KVServer.get, hentry, hvalue, hversion, S.roundTrip]⟩
  · intro hzero
    have habsent : s.net.kv.kvStore k = none := by
      by_contra hne
      have hpos := (hstore.present_iff k).mp hne
      omega
    simp [PutSetup.getJson, KVServer.get, habsent]

/-- The check, were its Get answered now. -/
theorem check_at_rest (hone : ∀ k', S.picks k' = true ↔ k' = k) (hrun : Reaches (putSys S) tr s)
    (hfew : (putCalls (putRpcs tr) k).length < 2 ^ 64)
    (hrest : ∀ c, c < S.nclnt → (s.client c).pc = .returned) {reliable : Bool}
    (hreliable : reliable = true → ∀ e ∈ putRpcs tr, e.lost = false) :
    S.checkPutConcurrent (s.net.kv.get ⟨k⟩) (s.results S) ⟨0, 0⟩ reliable
      = if 0 < (s.sums S).nok + (s.sums S).nmaybe then .ok (s.sums S) else .error .getJson := by
  obtain ⟨hlow, hhigh, hlt, hput⟩ := applied_bounds hone hrun hfew hrest
  obtain ⟨hsome, hnone⟩ := getJson_get hrun ((hone k).mpr rfl)
  have hsums : (s.results S).foldl ClntRes.add ⟨0, 0⟩ = s.sums S := rfl
  by_cases hpos : 0 < (s.sums S).nok + (s.sums S).nmaybe
  · obtain ⟨e, hjson⟩ := hsome (hput hpos)
    rw [if_pos hpos]
    simp only [PutSetup.checkPutConcurrent, hjson, hsums]
    cases reliable with
    | true =>
        -- nobody was told `ErrMaybe`, so the bounds meet
        have hzero : (s.sums S).nmaybe = 0 := by
          rw [sums_eq hone hrun hrest]
          simp [no_errMaybe (putRpcs_reaches hrun) (hreliable rfl) k]
        have heq : (appliedOn (putRpcs tr) k).length = (s.sums S).nok := by omega
        simp [heq]
    | false =>
        have hle : ¬ UInt64.ofNat (appliedOn (putRpcs tr) k).length
            > UInt64.ofNat ((s.sums S).nok + (s.sums S).nmaybe) := by
          rw [gt_iff_lt, UInt64.lt_iff_toNat_lt, toNat_ofNat_length (Nat.le_refl _) hlt,
            toNat_ofNat_length hhigh hlt]
          omega
        simp only [Bool.false_eq_true, if_false, if_neg hle]
  · rw [if_neg hpos]
    simp only [PutSetup.checkPutConcurrent, hnone (by omega)]

/-- A client that has returned stays as it is. -/
theorem returned_step {e : PutEvent} (h : PuttersOk S s) (hs : PutStep S s e s') (hc : c < S.nclnt)
    (hpc : (s.client c).pc = .returned) : s'.client c = s.client c := by
  have hgoto : ∀ {c₀ : ClientId} {pc : PutPc}, (s.client c₀).pc = .select → (s.goto c₀ pc).client c = s.client c := by
    intro c₀ pc hsel
    have hne : c ≠ c₀ := by
      rintro rfl
      rw [hpc] at hsel
      cases hsel
    simp [PutState.goto, hne]
  cases hs with
  | iterate _ hsel _ => exact hgoto hsel
  | stop _ hsel => exact hgoto hsel
  | rpc hs _ =>
      refine S.resumeAll_ne ?_
      rintro id op r rfl
      obtain ⟨x, _, hx, _⟩ := step_ret hs
      have hcall := (h.putter c hc).op x hx
      simp [hpc, PutSetup.call] at hcall

theorem returned_run (h : PuttersOk S s) (hrun : Run (putSys S) s tr s') (hc : c < S.nclnt)
    (hpc : (s.client c).pc = .returned) : s'.client c = s.client c := by
  refine (Run.invariant (P := fun _ s' => PuttersOk S s' ∧ s'.client c = s.client c) ⟨h, rfl⟩ ?_ hrun).2
  rintro _ s₁ e s₂ _ ⟨hok, hsame⟩ hs
  have hstep := returned_step hok hs hc (by rw [hsame, hpc])
  exact ⟨puttersOk_step hok hs, hstep.trans hsame⟩

theorem returned_of_stop (hrun : Reaches (putSys S) tr s) (hc : c < S.nclnt) (hstop : .stop c ∈ tr) :
    (s.client c).pc = .returned := by
  obtain ⟨pre, post, rfl⟩ := List.append_of_mem hstop
  obtain ⟨s₁, s₂, hpre, hs, hpost⟩ := Run.split_cons hrun
  have hok := puttersOk_step (puttersOk hpre) hs
  cases hs with
  | stop _ _ =>
      have hpc : ((s₁.goto c .returned).client c).pc = .returned := by simp [PutState.goto]
      rw [returned_run hok hpost hc hpc, hpc]

end Check

theorem putRpcs_append (tr tr' : List PutEvent) : putRpcs (tr ++ tr') = putRpcs tr ++ putRpcs tr' :=
  List.filterMap_append

theorem mem_putRpcs {tr : List PutEvent} {e : Event} : e ∈ putRpcs tr ↔ .rpc e ∈ tr := by
  unfold putRpcs
  rw [List.mem_filterMap]
  constructor
  · rintro ⟨e', he', hrpc⟩
    cases e' with
    | rpc e' => rwa [← Option.some.inj hrpc]
    | _ => cases hrpc
  · exact fun he => ⟨_, he, rfl⟩

/-- A Get that comes back was answered after it began, with what the server held at that moment. -/
theorem get_answered {S : PutSetup} {s : PutState} {tr₁ tr₂ : List PutEvent} {k : String} {ck : ClientId} {id : Nat}
    {r : GetReply} (hrun : Reaches (putSys S) (tr₁ ++ .rpc (.invoke ck id (.get ⟨k⟩)) :: tr₂) s)
    (hret : .rpc (.ret ck id (.get ⟨k⟩) (.get r)) ∈ tr₂) :
    ∃ mid post s₁, tr₁ ++ .rpc (.invoke ck id (.get ⟨k⟩)) :: tr₂ = (tr₁ ++ mid) ++ post
      ∧ Reaches (putSys S) (tr₁ ++ mid) s₁ ∧ Run (putSys S) s₁ post s ∧ r = s₁.net.kv.get ⟨k⟩ := by
  have hret' : Event.ret ck id (.get ⟨k⟩) (.get r) ∈ putRpcs (tr₁ ++ .rpc (.invoke ck id (.get ⟨k⟩)) :: tr₂) :=
    mem_putRpcs.mpr (List.mem_append_right _ (List.mem_cons_of_mem _ hret))
  obtain ⟨_, r₀, hr₀, hserve⟩ := (repliesOk (putRpcs_reaches hrun)).ret hret'
  obtain rfl := clerkResult_get hr₀
  -- its number was new when it began
  have hafter : .rpc (.serve ck id (.get ⟨k⟩) (.get r)) ∈ tr₂ := by
    obtain ⟨s₀, _, hpre, hinv, _⟩ := Run.split_cons hrun
    have hnet := putRpcs_reaches hpre
    rcases List.mem_append.mp (mem_putRpcs.mp hserve) with hbefore | hafter
    · have hlt := (callsOk hnet).idLt ((repliesOk hnet).serveInvoked (mem_putRpcs.mpr hbefore))
      cases hinv with
      | rpc hinv _ =>
          have hid := (step_invoke hinv).1
          omega
    · simpa using hafter
  obtain ⟨mid, post, rfl⟩ := List.append_of_mem hafter
  have hassoc : tr₁ ++ .rpc (.invoke ck id (.get ⟨k⟩)) :: (mid ++ .rpc (.serve ck id (.get ⟨k⟩) (.get r)) :: post)
      = (tr₁ ++ .rpc (.invoke ck id (.get ⟨k⟩)) :: mid) ++ .rpc (.serve ck id (.get ⟨k⟩) (.get r)) :: post := by simp
  rw [hassoc] at hrun ⊢
  obtain ⟨s₁, _, hmid, hs, hpost⟩ := Run.split_cons hrun
  refine ⟨_, _, s₁, rfl, hmid, Run.cons hs hpost, ?_⟩
  cases hs with
  | rpc hs _ =>
      obtain ⟨_, _, _, _, _, hr, _⟩ := step_serve hs
      exact Reply.get.inj hr

/-- Clients that have returned have no more to say. -/
theorem results_run {S : PutSetup} {s s' : PutState} {tr : List PutEvent} (h : PuttersOk S s)
    (hrun : Run (putSys S) s tr s') (hrest : ∀ c, c < S.nclnt → (s.client c).pc = .returned) :
    s'.results S = s.results S := by
  have hclients : s'.clients S = s.clients S := by
    refine List.map_congr_left (fun c hc => ?_)
    have hc := List.mem_range.mp hc
    exact returned_run h hrun hc (hrest c hc)
  unfold PutState.results
  rw [hclients]

/-- **`CheckPutConcurrent` finds nothing wrong** with clients that put to one key: once all of them have returned, a
    Get that begins then and comes back makes the check pass with the sums of the clients, also if requests run late;
    on a reliable network the strict check passes as well. The one thing it fails on is a test in which no client has
    put anything, since then there is no key to get. -/
theorem checkPutConcurrent_verdict {S : PutSetup} {s : PutState} {tr₁ tr₂ : List PutEvent} {k : String}
    (hone : ∀ k', S.picks k' = true ↔ k' = k) {ck : ClientId} {id : Nat} {r : GetReply}
    (hrun : Reaches (putSys S) (tr₁ ++ .rpc (.invoke ck id (.get ⟨k⟩)) :: tr₂) s)
    (hfew : (putCalls (putRpcs (tr₁ ++ .rpc (.invoke ck id (.get ⟨k⟩)) :: tr₂)) k).length < 2 ^ 64)
    (hstop : ∀ c, c < S.nclnt → .stop c ∈ tr₁) (hret : .rpc (.ret ck id (.get ⟨k⟩) (.get r)) ∈ tr₂)
    {reliable : Bool}
    (hreliable : reliable = true →
      ∀ e ∈ putRpcs (tr₁ ++ .rpc (.invoke ck id (.get ⟨k⟩)) :: tr₂), e.lost = false) :
    S.checkPutConcurrent r (s.results S) ⟨0, 0⟩ reliable
      = if 0 < (s.sums S).nok + (s.sums S).nmaybe then .ok (s.sums S) else .error .getJson := by
  obtain ⟨mid, post, s₁, hsplit, hmid, hpost, rfl⟩ := get_answered hrun hret
  rw [hsplit, putRpcs_append] at hfew hreliable
  have hrest : ∀ c, c < S.nclnt → (s₁.client c).pc = .returned := fun c hc =>
    returned_of_stop hmid hc (List.mem_append_left _ (hstop c hc))
  -- the clients are at the end what they were when the Get was answered
  have hresults := results_run (puttersOk hmid) hpost hrest
  have hsums : s.sums S = s₁.sums S := by
    unfold PutState.sums
    rw [hresults]
  rw [hresults, hsums]
  refine check_at_rest hone hmid ?_ hrest (fun hrel e he => hreliable hrel e (List.mem_append_left _ he))
  rw [putCalls, List.filterMap_append, List.length_append] at hfew
  exact Nat.lt_of_le_of_lt (Nat.le_add_right _ _) hfew

/-- Clients 0 and 1 on one key. -/
def twoPutters : PutSetup where
  nclnt := 2
  ka := ["k"]
  randomkeys := false
  marshal e := strokeMarshal [⟨e.id, e.v.toNat⟩]
  unmarshal v := (natsEntries (readStrokes 0 v.toList)).head?.map (fun e => ⟨e.id, UInt64.ofNat e.n.toNat⟩)
  roundTrip e := by
    rw [strokeMarshal, String.toList_ofList, readStrokes_flatMap, natsEntries_flatMap]
    simp

/-- Client 0's Put is applied and its reply lost; client 1 finds a newer version and puts under that; the retry comes
    back with `ErrMaybe`. -/
def putTrace : List PutEvent :=
  [.iterate 0 "k", .rpc (.invoke 0 0 (.put ⟨"k", twoPutters.marshal ⟨0, 0⟩, 0⟩)),
    .rpc (.serve 0 0 (.put ⟨"k", twoPutters.marshal ⟨0, 0⟩, 0⟩) (.put ⟨.OK⟩)), .rpc (.lose 0),
    .iterate 1 "k", .rpc (.invoke 1 1 (.put ⟨"k", twoPutters.marshal ⟨1, 0⟩, 0⟩)),
    .rpc (.serve 1 1 (.put ⟨"k", twoPutters.marshal ⟨1, 0⟩, 0⟩) (.put ⟨.ErrVersion⟩)),
    .rpc (.ret 1 1 (.put ⟨"k", twoPutters.marshal ⟨1, 0⟩, 0⟩) (.put ⟨.ErrVersion⟩)),
    .rpc (.invoke 1 2 (.get ⟨"k"⟩)),
    .rpc (.serve 1 2 (.get ⟨"k"⟩) (.get ⟨twoPutters.marshal ⟨0, 0⟩, 1, .OK⟩)),
    .rpc (.ret 1 2 (.get ⟨"k"⟩) (.get ⟨twoPutters.marshal ⟨0, 0⟩, 1, .OK⟩)),
    .rpc (.invoke 1 3 (.put ⟨"k", twoPutters.marshal ⟨1, 1⟩, 1⟩)),
    .rpc (.serve 1 3 (.put ⟨"k", twoPutters.marshal ⟨1, 1⟩, 1⟩) (.put ⟨.OK⟩)),
    .rpc (.ret 1 3 (.put ⟨"k", twoPutters.marshal ⟨1, 1⟩, 1⟩) (.put ⟨.OK⟩)),
    .rpc (.serve 0 0 (.put ⟨"k", twoPutters.marshal ⟨0, 0⟩, 0⟩) (.put ⟨.ErrVersion⟩)),
    .rpc (.ret 0 0 (.put ⟨"k", twoPutters.marshal ⟨0, 0⟩, 0⟩) (.put ⟨.ErrMaybe⟩)),
    .rpc (.invoke 0 4 (.get ⟨"k"⟩)), .rpc (.invoke 1 5 (.get ⟨"k"⟩)),
    .rpc (.serve 0 4 (.get ⟨"k"⟩) (.get ⟨twoPutters.marshal ⟨1, 1⟩, 2, .OK⟩)),
    .rpc (.serve 1 5 (.get ⟨"k"⟩) (.get ⟨twoPutters.marshal ⟨1, 1⟩, 2, .OK⟩)),
    .rpc (.ret 0 4 (.get ⟨"k"⟩) (.get ⟨twoPutters.marshal ⟨1, 1⟩, 2, .OK⟩)),
    .rpc (.ret 1 5 (.get ⟨"k"⟩) (.get ⟨twoPutters.marshal ⟨1, 1⟩, 2, .OK⟩)), .stop 0, .stop 1]

theorem onePut_never_fails_putTrace : ∃ s, Reaches (putSys twoPutters) putTrace s
    ∧ (s.client 0).pc ≠ .failed ∧ (s.client 1).pc ≠ .failed := by
  have hrun : ∃ s, Reaches (putSys twoPutters) putTrace s :=
    exists_reaches_of_exec (putSys_computedBy twoPutters) (by decide +kernel)
  obtain ⟨s, hs⟩ := hrun
  exact ⟨s, hs, onePut_never_fails hs (by decide), onePut_never_fails hs (by decide)⟩

/-- The check's own Get after it. -/
def checkGet : List PutEvent :=
  [.rpc (.serve 2 6 (.get ⟨"k"⟩) (.get ⟨twoPutters.marshal ⟨1, 1⟩, 2, .OK⟩)),
    .rpc (.ret 2 6 (.get ⟨"k"⟩) (.get ⟨twoPutters.marshal ⟨1, 1⟩, 2, .OK⟩))]

theorem checkPutConcurrent_verdict_putTrace : ∃ s : PutState,
    Reaches (putSys twoPutters) (putTrace ++ .rpc (.invoke 2 6 (.get ⟨"k"⟩)) :: checkGet) s
    ∧ twoPutters.checkPutConcurrent ⟨twoPutters.marshal ⟨1, 1⟩, 2, .OK⟩ (s.results twoPutters) ⟨0, 0⟩ false
      = .ok ⟨1, 1⟩ := by
  have hrun : ∃ s, Reaches (putSys twoPutters) (putTrace ++ .rpc (.invoke 2 6 (.get ⟨"k"⟩)) :: checkGet) s
      ∧ decide (s.sums twoPutters = ⟨1, 1⟩) = true :=
    exists_reaches_with (putSys_computedBy _) _ (by decide +kernel)
  obtain ⟨s, hs, hsums⟩ := hrun
  have hone : ∀ k', twoPutters.picks k' = true ↔ k' = "k" := by simp [PutSetup.picks, twoPutters, eq_comm]
  have hstop : ∀ c, c < twoPutters.nclnt → .stop c ∈ putTrace := by
    intro c hc
    obtain rfl | rfl := (show ∀ n : Nat, n < 2 → n = 0 ∨ n = 1 by omega) c hc <;> simp [putTrace]
  have hret : .rpc (.ret 2 6 (.get ⟨"k"⟩) (.get ⟨twoPutters.marshal ⟨1, 1⟩, 2, .OK⟩)) ∈ checkGet := by
    simp [checkGet]
  have hverdict : twoPutters.checkPutConcurrent ⟨twoPutters.marshal ⟨1, 1⟩, 2, .OK⟩ (s.results twoPutters) ⟨0, 0⟩
      false = _ := checkPutConcurrent_verdict hone hs (by decide +kernel) hstop hret (fun h => nomatch h)
  rw [of_decide_eq_true hsums] at hverdict
  exact ⟨s, hs, hverdict⟩

end KvSrv
end DistributedLabs
