import DistributedLabs.KvSrv.Accounting
import DistributedLabs.KvSrv.Append

/-!
# `KvSrv.AppendSafety` — no append is lost and none is made twice

At every moment the key holds a list `E` of entries, at the version `E.length + 1`. A list that some client has
read is an initial part of `E`, so a Put under its version is applied only while it is all of `E`: then `E` grows by
the client's entry. `AppendOk` says this for all clients at once, and `PutOk` what a client's Put in progress may
have done: nothing yet, or its one append, after which every further attempt finds the version gone.

The list is not in the state of the clients; it is carried beside the run, as `E`, and `append_step` says how it goes
on. An entry that another client adds changes nothing of what a client knows (`AppenderOk.grow`), so a step has to be
looked at for one client only, the one whose call it is about (`AppendOk.set`).

`ReturnsOk` is about the past: what a Put of an entry returned, and whether the entry is in the list. A late execution
could still change that after the return, so the runs are those in which nothing runs late.

## The argument

* `PutOk.served_current`, `PutOk.served_behind`: the handler runs a Put, on the whole list or on one that is behind.
* `AppenderOk.resume_get`, `AppenderOk.resume_put`: a Clerk call returns and the loop goes on.
* `AppendOk.serve`, `AppendOk.ret`, `SlotOk.invoke`, `AppendOk.resend`: the same among all clients, a lemma for each
  kind of step; `AppendOk.step` has them all.
* `append_step`: with what the Puts returned.
-/

namespace DistributedLabs
namespace KvSrv

open Lib

/-! ## What a client knows -/

/-- The client's counters and its entries. `extra` is 1 while an append is made that the client has yet to
    hear of. -/
structure Counted (me : Int) (E : List Entry) (extra : Nat) (a : Appender) : Prop where
  total : a.i = a.nok + a.nmay
  behind : ∀ e ∈ E, e.id = me → e.n < a.i + extra
  kept : a.nok + extra ≤ E.countP (fun e => e.id = me)

/-- A Put in progress of the list `es` and the next entry: nothing of it is applied, or it is applied and every
    further attempt is too late. -/
inductive PutOk (me : Int) (E es : List Entry) (call : Option Call) (a : Appender) : Prop where
  | pending : Counted me E 0 a →
      (∀ x r, call = some x → x.attempt = .served r → r = .put ⟨.ErrVersion⟩ ∧ es.length < E.length) →
      PutOk me E es call a
  | applied {x : Call} : Counted me E 1 a → es.length < E.length → ⟨me, a.i⟩ ∈ E → call = some x →
      (x.attempt = .sent → x.retried = true) →
      (∀ r, x.attempt = .served r → r = .put ⟨.OK⟩ ∨ (r = .put ⟨.ErrVersion⟩ ∧ x.retried = true)) →
      PutOk me E es call a

/-- What holds of a client, by program point. What it has read or puts back is an initial part of the list. -/
inductive AppenderOk (S : AppendSetup) (me : Int) (E : List Entry) (call : Option Call) (a : Appender) :
    Prop where
  | idle : S.call a.pc = none → Counted me E 0 a → a.i ≤ E.length → AppenderOk S me E call a
  | get : a.pc = .get → Counted me E 0 a → a.i ≤ E.length →
      (∀ x r, call = some x → x.attempt = .served r →
        ∃ es, r = .get ⟨S.marshal es, UInt64.ofNat (es.length + 1), .OK⟩ ∧ es <+: E ∧ a.i ≤ es.length) →
      AppenderOk S me E call a
  | put {es : List Entry} : a.pc = .put (es ++ [⟨me, a.i⟩]) (UInt64.ofNat (es.length + 1)) →
      es.length < maxLen → es <+: E → a.i ≤ es.length → PutOk me E es call a → AppenderOk S me E call a

/-- What holds of a client and its call in progress, whether it runs the loop or not. -/
structure SlotOk (S : AppendSetup) (E : List Entry) (c : ClientId) (call : Option Call) (a : Appender) : Prop where
  appender : ∀ {me}, S.me c = some me → AppenderOk S me E call a
  op : ∀ {me op}, S.me c = some me → call.map Call.op = some op → S.call a.pc = some op
  other : ∀ {args}, S.me c = none → call.map Call.op = some (.put args) → args.key ≠ S.key

/-- The invariant. -/
structure AppendOk (S : AppendSetup) (E : List Entry) (s : AppendState) : Prop where
  stored : s.net.kv.kvStore S.key = some ⟨S.marshal E, UInt64.ofNat (E.length + 1)⟩
  short : E.length ≤ maxLen
  ordered : E.Pairwise (fun e e' => e.id = e'.id → e.n < e'.n)
  nonneg : ∀ e ∈ E, 0 ≤ e.n
  owned : ∀ e ∈ E, ∃ c, S.me c = some e.id
  slot : ∀ c, SlotOk S E c (s.net.calls c) (s.client c)

theorem appendOk_init (S : AppendSetup) : AppendOk S [] (appendSys S).init where
  stored := S.start
  short := Nat.zero_le _
  ordered := List.Pairwise.nil
  nonneg e he := by cases he
  owned e he := by cases he
  slot c := {
    appender := fun _ =>
      .idle rfl ⟨rfl, fun e he => absurd he List.not_mem_nil, Nat.le_refl _⟩ (Nat.le_refl _)
    op := fun _ h => by cases h
    other := fun _ h => by cases h }

/-! ## Another client's entry -/

section Grow

variable {S : AppendSetup} {me : Int} {E es : List Entry} {e : Entry} {call : Option Call} {a : Appender}
  {extra : Nat}

/-- The counters go on. -/
theorem Counted.next {a' : Appender} {extra' : Nat} (h : Counted me E extra a)
    (htotal : a'.i = a'.nok + a'.nmay) (hi : a.i + extra ≤ a'.i + extra')
    (hnok : a'.nok + extra' ≤ a.nok + extra) : Counted me E extra' a' := by
  refine ⟨htotal, fun e he hid => ?_, Nat.le_trans hnok h.kept⟩
  have := h.behind e he hid
  omega

theorem Counted.grow (h : Counted me E extra a) (hne : e.id ≠ me) : Counted me (E ++ [e]) extra a := by
  refine ⟨h.total, fun e' he' hid => ?_, ?_⟩
  · rcases List.mem_append.mp he' with hold | hnew
    · exact h.behind e' hold hid
    · rw [List.mem_singleton.mp hnew] at hid
      exact absurd hid hne
  · rw [List.countP_append]
    exact Nat.le_trans h.kept (Nat.le_add_right _ _)

/-- A Put in progress stands as before when another client's entry comes in; its version is gone, if it was not
before. -/
theorem PutOk.grow (h : PutOk me E es call a) (hne : e.id ≠ me) : PutOk me (E ++ [e]) es call a := by
  have hlen : es.length < E.length → es.length < (E ++ [e]).length := by
    rw [List.length_append]
    omega
  cases h with
  | pending hcount hserved =>
      refine .pending (hcount.grow hne) (fun x r hx hr => ?_)
      obtain ⟨hrep, hlt⟩ := hserved x r hx hr
      exact ⟨hrep, hlen hlt⟩
  | applied hcount hlt hin hx hsent hserved =>
      exact .applied (hcount.grow hne) (hlen hlt) (List.mem_append_left _ hin) hx hsent hserved

/-- The list grows by an entry of somebody else. -/
theorem AppenderOk.grow (h : AppenderOk S me E call a) (hne : e.id ≠ me) :
    AppenderOk S me (E ++ [e]) call a := by
  have hlen : a.i ≤ E.length → a.i ≤ (E ++ [e]).length := by
    rw [List.length_append]
    omega
  have hpre : ∀ {es : List Entry}, es <+: E → es <+: E ++ [e] := fun h => h.trans (List.prefix_append _ _)
  cases h with
  | idle hpc hcount hi => exact .idle hpc (hcount.grow hne) (hlen hi)
  | get hpc hcount hi hserved =>
      refine .get hpc (hcount.grow hne) (hlen hi) (fun x r hx hr => ?_)
      obtain ⟨es, hrep, hes, hies⟩ := hserved x r hx hr
      exact ⟨es, hrep, hpre hes, hies⟩
  | put hpc hmax hes hi hput => exact .put hpc hmax (hpre hes) hi (hput.grow hne)

end Grow

/-! ## The service's answers -/

section Answers

variable {S : AppendSetup} {E : List Entry} {s : AppendState}

/-- Below `2 ^ 63` entries the version tells an initial part of the list from the whole. -/
theorem AppendOk.version_inj (h : AppendOk S E s) {es : List Entry} (hes : es <+: E)
    (hver : UInt64.ofNat (es.length + 1) = UInt64.ofNat (E.length + 1)) : es = E := by
  have hle := hes.length_le
  have hshort := h.short
  unfold maxLen at hshort
  have hto := congrArg UInt64.toNat hver
  rw [UInt64.toNat_ofNat_of_lt' (show es.length + 1 < 2 ^ 64 by omega),
    UInt64.toNat_ofNat_of_lt' (show E.length + 1 < 2 ^ 64 by omega)] at hto
  exact hes.eq_of_length (by omega)

/-- The version of the key is one more than the length of the list. -/
theorem AppendOk.currentVersion (h : AppendOk S E s) :
    s.net.kv.currentVersion S.key = UInt64.ofNat (E.length + 1) := by
  unfold KVServer.currentVersion
  rw [h.stored]
  rfl

/-- A Get of the key is told the list. -/
theorem AppendOk.dispatch_get (h : AppendOk S E s) :
    s.net.kv.dispatch (.get ⟨S.key⟩)
      = (s.net.kv, .get ⟨S.marshal E, UInt64.ofNat (E.length + 1), .OK⟩) := by
  unfold KVServer.dispatch KVServer.get
  dsimp only
  rw [h.stored]

/-- A Put under the version of the whole list replaces it. -/
theorem AppendOk.dispatch_current (h : AppendOk S E s) (v : String) :
    s.net.kv.dispatch (.put ⟨S.key, v, UInt64.ofNat (E.length + 1)⟩)
      = (s.net.kv.set S.key ⟨v, UInt64.ofNat (E.length + 1) + 1⟩, .put ⟨.OK⟩) := by
  have hput : s.net.kv.put ⟨S.key, v, UInt64.ofNat (E.length + 1)⟩ = _ := put_of_current h.currentVersion.symm
  unfold KVServer.dispatch
  dsimp only
  rw [hput]

/-- A Put under the version of a shorter list does nothing. -/
theorem AppendOk.dispatch_behind (h : AppendOk S E s) {es : List Entry} (hes : es <+: E)
    (hlt : es.length < E.length) (v : String) :
    s.net.kv.dispatch (.put ⟨S.key, v, UInt64.ofNat (es.length + 1)⟩) = (s.net.kv, .put ⟨.ErrVersion⟩) := by
  have hne : UInt64.ofNat (es.length + 1) ≠ s.net.kv.currentVersion S.key := by
    rw [h.currentVersion]
    intro hver
    rw [h.version_inj hes hver] at hlt
    exact Nat.lt_irrefl _ hlt
  have hput : s.net.kv.put ⟨S.key, v, UInt64.ofNat (es.length + 1)⟩ = _ := put_of_not_current hne
  unfold KVServer.dispatch
  dsimp only
  rw [hput, h.stored]
  simp

end Answers

/-! ## One client moves -/

section Slots

variable {S : AppendSetup} {E : List Entry} {c : ClientId} {a : Appender} {x : Call} {r : Reply}

/-- What holds of the other clients stays, so that one is left to look at. -/
theorem AppendOk.set {s s' : AppendState} (h : AppendOk S E s)
    (hkv : s'.net.kv.kvStore S.key = s.net.kv.kvStore S.key)
    (hsame : ∀ c' ≠ c, s'.net.calls c' = s.net.calls c' ∧ s'.client c' = s.client c')
    (hslot : SlotOk S E c (s'.net.calls c) (s'.client c)) : AppendOk S E s' := by
  refine { h with stored := hkv.trans h.stored, slot := fun c' => ?_ }
  by_cases hc : c' = c
  · exact hc ▸ hslot
  · obtain ⟨hcall, hclient⟩ := hsame c' hc
    rw [hcall, hclient]
    exact h.slot c'

theorem SlotOk.of_none (h : ∀ {me}, S.me c = some me → AppenderOk S me E none a) : SlotOk S E c none a where
  appender := h
  op _ hop := by cases hop
  other _ hop := by cases hop

/-- A request is sent, by a new call or once more. -/
theorem AppenderOk.sent {me : Int} {call : Option Call} (h : AppenderOk S me E call a)
    (hsent : x.attempt = .sent) (hretried : call ≠ none → x.retried = true) :
    AppenderOk S me E (some x) a := by
  have hnone : ∀ {r}, x.attempt ≠ .served r := by
    intro r hr
    rw [hsent] at hr
    cases hr
  cases h with
  | idle hpc hcount hi => exact .idle hpc hcount hi
  | get hpc hcount hi _ =>
      refine .get hpc hcount hi (fun x' r hx hr => ?_)
      cases hx
      exact absurd hr hnone
  | put hpc hmax hes hi hput =>
      refine .put hpc hmax hes hi ?_
      cases hput with
      | pending hcount _ =>
          refine .pending hcount (fun x' r hx hr => ?_)
          cases hx
          exact absurd hr hnone
      | applied hcount hlt hin hx _ _ =>
          refine .applied hcount hlt hin rfl (fun _ => hretried ?_) (fun r hr => absurd hr hnone)
          rw [hx]
          simp

theorem SlotOk.resend (h : SlotOk S E c (some x) a) : SlotOk S E c (some x.resend) a :=
  ⟨fun hme => (h.appender hme).sent rfl (fun _ => rfl), h.op, h.other⟩

/-- The Get is answered with the whole list. -/
theorem AppenderOk.served_get {me : Int} (hpc : a.pc = .get) (hcount : Counted me E 0 a) (hi : a.i ≤ E.length) :
    AppenderOk S me E (some { x with
      attempt := .served (.get ⟨S.marshal E, UInt64.ofNat (E.length + 1), .OK⟩) }) a := by
  refine .get hpc hcount hi (fun x' r hx hr => ?_)
  cases hx
  cases hr
  exact ⟨E, rfl, List.prefix_rfl, hi⟩

/-- The Put is answered after the list has grown. -/
theorem PutOk.served_behind {me : Int} {es : List Entry} (h : PutOk me E es (some x) a)
    (hsent : x.attempt = .sent) (hlt : es.length < E.length) :
    PutOk me E es (some { x with attempt := .served (.put ⟨.ErrVersion⟩) }) a := by
  cases h with
  | pending hcount _ =>
      refine .pending hcount (fun x' r hx hr => ?_)
      cases hx
      cases hr
      exact ⟨rfl, hlt⟩
  | applied hcount _ hin hx hretried _ =>
      cases hx
      refine .applied hcount hlt hin rfl (fun h => by cases h) (fun r hr => ?_)
      cases hr
      exact Or.inr ⟨rfl, hretried hsent⟩

/-- The Put is applied: the list grows by the client's entry. -/
theorem PutOk.served_current {me : Int} (h : PutOk me E E (some x) a) :
    PutOk me (E ++ [⟨me, a.i⟩]) E (some { x with attempt := .served (.put ⟨.OK⟩) }) a := by
  cases h with
  | applied _ hlt => exact absurd hlt (Nat.lt_irrefl _)
  | pending hcount _ =>
      refine .applied ⟨hcount.total, fun e he hid => ?_, ?_⟩ (by simp) (by simp) rfl (fun h => by cases h)
        (fun r hr => ?_)
      · rcases List.mem_append.mp he with hold | hnew
        · have := hcount.behind e hold hid
          omega
        · rw [List.mem_singleton.mp hnew]
          dsimp only
          omega
      · have := hcount.kept
        rw [List.countP_append]
        simp
        omega
      · cases hr
        exact Or.inl rfl

/-- The list a client has read comes with the Get's return. -/
theorem AppenderOk.resume_get {me : Int} {es : List Entry} (hpc : a.pc = .get) (hcount : Counted me E 0 a)
    (hlen : a.i ≤ E.length) (hes : es <+: E) (hi : a.i ≤ es.length) :
    AppenderOk S me E none (S.resume me a (.get ⟨S.marshal es, UInt64.ofNat (es.length + 1), .OK⟩)) := by
  have hafter : S.resume me a (.get ⟨S.marshal es, UInt64.ofNat (es.length + 1), .OK⟩)
      = { a with pc := if es.length < maxLen then .put (es ++ [⟨me, a.i⟩]) (UInt64.ofNat (es.length + 1))
                       else .failed } := by
    simp [AppendSetup.resume, hpc, AppendSetup.afterGet, S.roundTrip]
  rw [hafter]
  have hcount' : ∀ pc, Counted me E 0 { a with pc := pc } :=
    fun pc => hcount.next hcount.total (Nat.le_refl _) (Nat.le_refl _)
  by_cases hmax : es.length < maxLen
  · rw [if_pos hmax]
    exact .put rfl hmax hes hi (.pending (hcount' _) (fun x r hx => by cases hx))
  · rw [if_neg hmax]
    exact .idle rfl (hcount' _) hlen

/-- What a Put in progress may return. -/
theorem PutOk.result {me : Int} {es : List Entry} (h : PutOk me E es (some x) a) (hserved : x.attempt = .served r) :
    (clerkResult x.retried r = .put ⟨.OK⟩ ∧ Counted me E 1 a ∧ es.length < E.length ∧ ⟨me, a.i⟩ ∈ E)
    ∨ (clerkResult x.retried r = .put ⟨.ErrMaybe⟩ ∧ (∃ extra ≤ 1, Counted me E extra a) ∧ es.length < E.length)
    ∨ (clerkResult x.retried r = .put ⟨.ErrVersion⟩ ∧ Counted me E 0 a ∧ es.length < E.length) := by
  cases h with
  | pending hcount hreply =>
      obtain ⟨rfl, hlt⟩ := hreply x r rfl hserved
      cases hretried : x.retried with
      | true => exact Or.inr (Or.inl ⟨rfl, ⟨0, by omega, hcount⟩, hlt⟩)
      | false => exact Or.inr (Or.inr ⟨rfl, hcount, hlt⟩)
  | applied hcount hlt hin hx _ hreply =>
      cases hx
      rcases hreply r hserved with rfl | ⟨rfl, hretried⟩
      · exact Or.inl ⟨rfl, hcount, hlt, hin⟩
      · rw [hretried]
        exact Or.inr (Or.inl ⟨rfl, ⟨1, Nat.le_refl _, hcount⟩, hlt⟩)

/-- The loop goes on with the result of the Put. -/
theorem AppenderOk.resume_put {me : Int} {es es' : List Entry} {ver : Tversion} (hpc : a.pc = .put es' ver)
    (hi : a.i ≤ es.length) (hput : PutOk me E es (some x) a) (hserved : x.attempt = .served r) :
    AppenderOk S me E none (S.resume me a (clerkResult x.retried r)) := by
  rcases hput.result hserved with
    ⟨hres, hcount, hlt, _⟩ | ⟨hres, ⟨extra, hextra, hcount⟩, hlt⟩ | ⟨hres, hcount, hlt⟩
  all_goals
    have htotal := hcount.total
    rw [hres]
    simp only [AppendSetup.resume, hpc]
  · refine .idle rfl (hcount.next ?_ ?_ ?_) ?_ <;> simp only [if_true] <;> omega
  · refine .idle rfl (hcount.next ?_ ?_ ?_) ?_ <;> simp <;> omega
  · refine .get rfl (hcount.next ?_ ?_ ?_) ?_ (fun x' r' hx => by cases hx) <;> simp <;> omega

end Slots

/-! ## One step -/

section Steps

variable {S : AppendSetup} {E : List Entry} {s s' : AppendState} {c : ClientId} {x : Call} {me : Int}

theorem AppenderOk.of_idle {call : Option Call} {a : Appender} (h : AppenderOk S me E call a)
    (hpc : S.call a.pc = none) : Counted me E 0 a ∧ a.i ≤ E.length := by
  cases h with
  | idle _ hcount hi => exact ⟨hcount, hi⟩
  | get hget => rw [hget] at hpc; cases hpc
  | put hput => rw [hput] at hpc; cases hpc

theorem AppendOk.call_of (h : AppendOk S E s) (hme : S.me c = some me) (hx : s.net.calls c = some x) :
    S.call (s.client c).pc = some x.op :=
  (h.slot c).op hme (by rw [hx]; rfl)

/-- A call in progress of a client in the loop is the Get or the Put the loop is at. -/
theorem AppendOk.in_progress (h : AppendOk S E s) (hme : S.me c = some me) (hx : s.net.calls c = some x) :
    ((s.client c).pc = .get ∧ x.op = .get ⟨S.key⟩ ∧ Counted me E 0 (s.client c) ∧ (s.client c).i ≤ E.length ∧
      ∀ r, x.attempt = .served r → ∃ es, r = .get ⟨S.marshal es, UInt64.ofNat (es.length + 1), .OK⟩ ∧ es <+: E ∧
        (s.client c).i ≤ es.length) ∨
    ∃ es, (s.client c).pc = .put (es ++ [⟨me, (s.client c).i⟩]) (UInt64.ofNat (es.length + 1)) ∧
      x.op = .put ⟨S.key, S.marshal (es ++ [⟨me, (s.client c).i⟩]), UInt64.ofNat (es.length + 1)⟩ ∧
      es.length < maxLen ∧ es <+: E ∧ (s.client c).i ≤ es.length ∧ PutOk me E es (some x) (s.client c) := by
  have hcall := h.call_of hme hx
  have hslot := h.slot c
  rw [hx] at hslot
  cases hslot.appender hme with
  | idle hpc _ _ =>
      rw [hpc] at hcall
      cases hcall
  | get hpc hcount hi hserved =>
      rw [hpc] at hcall
      exact Or.inl ⟨hpc, (Option.some.inj hcall).symm, hcount, hi, fun r hr => hserved x r rfl hr⟩
  | @put es hpc hmax hes hi hput =>
      rw [hpc] at hcall
      exact Or.inr ⟨es, hpc, (Option.some.inj hcall).symm, hmax, hes, hi, hput⟩

/-- The `select` goes one way or the other. -/
theorem AppendOk.goto (h : AppendOk S E s) (hme : S.me c = some me) (hpc : (s.client c).pc = .select)
    {pc : AppendPc} (hto : pc = .get ∨ pc = .returned) : AppendOk S E (s.goto c pc) := by
  have hnone : s.net.calls c = none := by
    cases hx : s.net.calls c with
    | none => rfl
    | some x =>
        have hcall := h.call_of hme hx
        rw [hpc] at hcall
        cases hcall
  have hcalls : (s.goto c pc).net.calls c = none := hnone
  have hclient : (s.goto c pc).client c = { s.client c with pc := pc } := Function.update_self ..
  refine h.set (c := c) rfl (fun c' hc' => ⟨rfl, Function.update_of_ne hc' ..⟩) ?_
  rw [hcalls, hclient]
  refine .of_none (fun hme' => ?_)
  obtain rfl : me = _ := Option.some.inj (hme.symm.trans hme')
  obtain ⟨hcount, hi⟩ := ((h.slot c).appender hme).of_idle (by rw [hpc]; rfl)
  have hcount' : Counted me E 0 { s.client c with pc := pc } :=
    hcount.next hcount.total (Nat.le_refl _) (Nat.le_refl _)
  rcases hto with rfl | rfl
  · exact .get rfl hcount' hi (fun x r hx => by cases hx)
  · exact .idle rfl hcount' hi

/-- A Put of the whole list and one more entry is applied. -/
theorem AppendOk.applied (h : AppendOk S E s) (hme : S.me c = some me) (hx : s.net.calls c = some x)
    (hpc : (s.client c).pc = .put (E ++ [⟨me, (s.client c).i⟩]) (UInt64.ofNat (E.length + 1)))
    (hmax : E.length < maxLen) (hi : (s.client c).i ≤ E.length) (hput : PutOk me E E (some x) (s.client c)) :
    AppendOk S (E ++ [⟨me, (s.client c).i⟩])
      ⟨{ s.net.setCall c (some { x with attempt := .served (.put ⟨.OK⟩) }) with
          kv := s.net.kv.set S.key ⟨S.marshal (E ++ [⟨me, (s.client c).i⟩]), UInt64.ofNat (E.length + 1) + 1⟩ },
        s.client⟩ := by
  -- a Put under the version of the whole list has not been applied: it would be behind
  have hcount : Counted me E 0 (s.client c) := by
    cases hput with
    | pending hcount _ => exact hcount
    | applied _ hlt => exact absurd hlt (Nat.lt_irrefl _)
  constructor
  · dsimp only
    rw [set_kvStore_self, List.length_append, List.length_singleton, UInt64.ofNat_add (E.length + 1)]
    rfl
  · rw [List.length_append]
    exact hmax
  · refine List.pairwise_append.mpr ⟨h.ordered, List.pairwise_singleton _ _, fun e he e' he' hid => ?_⟩
    rw [List.mem_singleton.mp he'] at hid ⊢
    -- the client's earlier entries have smaller numbers
    have := hcount.behind e he hid
    dsimp only
    omega
  · intro e he
    rcases List.mem_append.mp he with hold | hnew
    · exact h.nonneg e hold
    · rw [List.mem_singleton.mp hnew]
      exact Int.natCast_nonneg _
  · intro e he
    rcases List.mem_append.mp he with hold | hnew
    · exact h.owned e hold
    · rw [List.mem_singleton.mp hnew]
      exact ⟨c, hme⟩
  · intro c'
    dsimp only
    by_cases hc : c' = c
    · subst hc
      rw [show ({ s.net.setCall c' _ with kv := _ } : State).calls c' = _ from setCall_calls_self ..]
      have hslot := h.slot c'
      rw [hx] at hslot
      refine ⟨fun hme' => ?_, hslot.op, hslot.other⟩
      obtain rfl : me = _ := Option.some.inj (hme.symm.trans hme')
      exact .put hpc hmax (List.prefix_append _ _) hi hput.served_current
    · rw [show ({ s.net.setCall c _ with kv := _ } : State).calls c' = _ from setCall_calls_ne _ _ hc]
      have hslot := h.slot c'
      refine ⟨fun hme' => (hslot.appender hme').grow (fun hid => hc ?_), hslot.op, hslot.other⟩
      rw [← hid] at hme'
      exact S.distinct hme' hme

/-- The handler runs a request of a client that does not run the loop. -/
theorem AppendOk.serve_other (h : AppendOk S E s) (hx : s.net.calls c = some x) (hme : S.me c = none) :
    AppendOk S E ⟨{ s.net.setCall c (some { x with attempt := .served (s.net.kv.dispatch x.op).2 }) with
      kv := (s.net.kv.dispatch x.op).1 }, s.client⟩ := by
  have hslot := h.slot c
  rw [hx] at hslot
  have hkv : (s.net.kv.dispatch x.op).1.kvStore S.key = s.net.kv.kvStore S.key := by
    rcases dispatch_cases s.net.kv x.op with ⟨args, hop, _, hd⟩ | ⟨hd, _⟩
    · rw [hd]
      exact set_kvStore_ne (hslot.other hme (congrArg some hop)).symm
    · rw [hd]
  refine h.set (c := c) hkv (fun c' hc' => ⟨setCall_calls_ne _ _ hc', rfl⟩) ?_
  have hcall := setCall_calls_self s.net c (some { x with attempt := .served (s.net.kv.dispatch x.op).2 })
  rw [show State.calls _ c = _ from hcall]
  refine ⟨fun hme' => ?_, hslot.op, hslot.other⟩
  rw [hme] at hme'
  cases hme'

/-- The handler runs a request of a client. -/
theorem AppendOk.serve (h : AppendOk S E s) (hx : s.net.calls c = some x) (hsent : x.attempt = .sent) :
    ∃ E', (E' = E ∨ ∃ me, S.me c = some me ∧ E' = E ++ [⟨me, (s.client c).i⟩])
      ∧ AppendOk S E' ⟨{ s.net.setCall c (some { x with attempt := .served (s.net.kv.dispatch x.op).2 }) with
          kv := (s.net.kv.dispatch x.op).1 }, s.client⟩ := by
  cases hme : S.me c with
  | none => exact ⟨E, Or.inl rfl, h.serve_other hx hme⟩
  | some me =>
      have hslot := h.slot c
      rw [hx] at hslot
      -- the store stays, and the call has its answer
      have hanswer : ∀ r, s.net.kv.dispatch x.op = (s.net.kv, r) →
          AppenderOk S me E (some { x with attempt := .served r }) (s.client c) →
          AppendOk S E ⟨{ s.net.setCall c (some { x with attempt := .served (s.net.kv.dispatch x.op).2 }) with
            kv := (s.net.kv.dispatch x.op).1 }, s.client⟩ := by
        intro r hd happ
        rw [hd]
        refine h.set (c := c) rfl (fun c' hc' => ⟨setCall_calls_ne _ _ hc', rfl⟩) ?_
        rw [show State.calls _ c = _ from setCall_calls_self s.net c (some { x with attempt := .served r })]
        refine ⟨fun hme' => ?_, hslot.op, hslot.other⟩
        obtain rfl : me = _ := Option.some.inj (hme.symm.trans hme')
        exact happ
      rcases h.in_progress hme hx with ⟨hpc, hop, hcount, hi, _⟩ | ⟨es, hpc, hop, hmax, hes, hi, hput⟩
      · have hd := h.dispatch_get
        rw [← hop] at hd
        exact ⟨E, Or.inl rfl, hanswer _ hd (.served_get hpc hcount hi)⟩
      · by_cases hlt : es.length < E.length
        · have hd := h.dispatch_behind hes hlt (S.marshal (es ++ [⟨me, (s.client c).i⟩]))
          rw [← hop] at hd
          exact ⟨E, Or.inl rfl, hanswer _ hd (.put hpc hmax hes hi (hput.served_behind hsent hlt))⟩
        · obtain rfl : es = E := hes.eq_of_length (Nat.le_antisymm hes.length_le (Nat.le_of_not_lt hlt))
          have hd := h.dispatch_current (S.marshal (es ++ [⟨me, (s.client c).i⟩]))
          rw [← hop] at hd
          rw [hd]
          exact ⟨_, Or.inr ⟨me, rfl, rfl⟩, h.applied hme hx hpc hmax hi hput⟩

/-- A Clerk call returns. -/
theorem AppendOk.ret {r : Reply} {id : Nat} {op : Op} (h : AppendOk S E s) (hx : s.net.calls c = some x)
    (hserved : x.attempt = .served r) :
    AppendOk S E ⟨s.net.setCall c none, S.resumeAll s.client (.ret c id op (clerkResult x.retried r))⟩ := by
  refine h.set (c := c) rfl (fun c' hc' => ⟨setCall_calls_ne _ _ hc', ?_⟩) ?_
  · dsimp only
    refine resumeAll_ne (fun id' op' r' heq => ?_)
    cases heq
    exact hc' rfl
  · rw [setCall_calls_self]
    refine .of_none (fun {me} hme => ?_)
    dsimp only
    rw [resumeAll_self hme]
    rcases h.in_progress hme hx with ⟨hpc, _, hcount, hi, hreply⟩ | ⟨es, hpc, _, _, _, hi, hput⟩
    · obtain ⟨es, rfl, hes, hies⟩ := hreply r hserved
      exact .resume_get hpc hcount hi hes hies
    · exact .resume_put hpc hi hput hserved

/-- A new call begins, as `allows` lets it. -/
theorem SlotOk.invoke {client : ClientId → Appender} {id : Nat} {op : Op} (h : SlotOk S E c none (client c))
    (hok : S.allows client (.invoke c id op) = true) :
    SlotOk S E c (some ⟨id, op, false, .sent⟩) (client c) := by
  refine ⟨fun hme => (h.appender hme).sent rfl (fun hne => absurd rfl hne), fun hme hop => ?_, fun hme hop => ?_⟩
  · cases hop
    simpa [AppendSetup.allows, hme] using hok
  · cases hop
    simpa [AppendSetup.allows, hme] using hok

/-- An attempt is lost and the request sent again. -/
theorem AppendOk.resend {net' : State} (h : AppendOk S E s) (hx : s.net.calls c = some x)
    (hkv : net'.kv = s.net.kv) (hcalls : net'.calls = Function.update s.net.calls c (some x.resend)) :
    AppendOk S E ⟨net', s.client⟩ := by
  have hslot := h.slot c
  rw [hx] at hslot
  refine h.set (c := c) (congrArg (fun kv => kv.kvStore S.key) hkv) (fun c' hc' => ⟨?_, rfl⟩) ?_
  · dsimp only
    rw [hcalls, Function.update_of_ne hc']
  · dsimp only
    rw [hcalls, Function.update_self]
    exact hslot.resend

/-- **Every step keeps the invariant**, and the list stays or grows by the entry a client is at. -/
theorem AppendOk.step {e : AppendEvent} (h : AppendOk S E s) (hs : AppendStep S s e s')
    (hlate : ∀ id op r, e ≠ .rpc (.serveLate id op r)) :
    ∃ E', (E' = E ∨ ∃ c me, S.me c = some me ∧ E' = E ++ [⟨me, (s.client c).i⟩]) ∧ AppendOk S E' s' := by
  cases hs with
  | iterate hme hpc => exact ⟨E, Or.inl rfl, h.goto hme hpc (Or.inl rfl)⟩
  | stop hme hpc => exact ⟨E, Or.inl rfl, h.goto hme hpc (Or.inr rfl)⟩
  | @rpc e net' hs hok =>
      cases hs with
      | @invoke c op hnone =>
          refine ⟨E, Or.inl rfl, h.set (c := c) rfl (fun c' hc' => ⟨setCall_calls_ne _ _ hc', rfl⟩) ?_⟩
          have hslot := h.slot c
          rw [hnone] at hslot
          rw [show State.calls _ c = _ from setCall_calls_self ..]
          exact hslot.invoke hok
      | @serve c x hx hsent =>
          obtain ⟨E', hE', hok'⟩ := h.serve hx hsent
          refine ⟨E', hE'.imp id (fun hgrow => ?_), hok'⟩
          obtain ⟨me, hme, heq⟩ := hgrow
          exact ⟨c, me, hme, heq⟩
      | @drop c x hx hsent => exact ⟨E, Or.inl rfl, h.resend hx rfl rfl⟩
      | @lose c x r hx hserved => exact ⟨E, Or.inl rfl, h.resend hx rfl rfl⟩
      | @abandon c x hx hsent => exact ⟨E, Or.inl rfl, h.resend hx rfl rfl⟩
      | serveLate _ => exact absurd rfl (hlate _ _ _)
      | @ret c x r hx hserved => exact ⟨E, Or.inl rfl, h.ret hx hserved⟩

end Steps

/-! ## What the Puts returned -/

/-- A Put of the client that appends the entry returned this. -/
def Returned (S : AppendSetup) (tr : List AppendEvent) (c : ClientId) (e : Entry) (err : Err) : Prop :=
  ∃ id es ver, AppendEvent.rpc (.ret c id (.put ⟨S.key, S.marshal (es ++ [e]), ver⟩) (.put ⟨err⟩)) ∈ tr

/-- What was told to be appended is there, and who is through with an entry that is there has been told. -/
structure ReturnsOk (S : AppendSetup) (E : List Entry) (tr : List AppendEvent) (s : AppendState) : Prop where
  ok : ∀ {c me e}, S.me c = some me → Returned S tr c e .OK → e ∈ E
  told : ∀ {c e}, S.me c = some e.id → e ∈ E → e.n < (s.client c).i →
    Returned S tr c e .OK ∨ Returned S tr c e .ErrMaybe

section Returns

variable {S : AppendSetup} {E : List Entry} {tr : List AppendEvent} {s s' : AppendState} {c : ClientId}
  {e : AppendEvent} {x : Entry} {err : Err}

theorem Returned.mono (h : Returned S tr c x err) : Returned S (tr ++ [e]) c x err := by
  obtain ⟨id, es, ver, hret⟩ := h
  exact ⟨id, es, ver, List.mem_append_left _ hret⟩

theorem Returned.of_snoc (h : Returned S (tr ++ [e]) c x err) : Returned S tr c x err
    ∨ ∃ id es ver, e = .rpc (.ret c id (.put ⟨S.key, S.marshal (es ++ [x]), ver⟩) (.put ⟨err⟩)) := by
  obtain ⟨id, es, ver, hret⟩ := h
  rcases List.mem_append.mp hret with hold | hnew
  · exact Or.inl ⟨id, es, ver, hold⟩
  · exact Or.inr ⟨id, es, ver, (List.mem_singleton.mp hnew).symm⟩

theorem marshal_inj (S : AppendSetup) {es es' : List Entry} (h : S.marshal es = S.marshal es') : es = es' := by
  have hround := S.roundTrip es
  rw [h, S.roundTrip es'] at hround
  exact (Option.some.inj hround).symm

/-- Steps that are no returns to the loop. -/
theorem ReturnsOk.keep {E' : List Entry} (h : ReturnsOk S E tr s)
    (hE : E' = E ∨ ∃ c me, S.me c = some me ∧ E' = E ++ [⟨me, (s.client c).i⟩])
    (hi : ∀ {c me}, S.me c = some me → (s'.client c).i = (s.client c).i)
    (hret : ∀ {c me id op r}, S.me c = some me → e ≠ .rpc (.ret c id op r)) : ReturnsOk S E' (tr ++ [e]) s' := by
  have hsub : ∀ {y}, y ∈ E → y ∈ E' := by
    intro y hy
    rcases hE with rfl | ⟨_, _, _, rfl⟩
    · exact hy
    · exact List.mem_append_left _ hy
  refine ⟨fun hme hok => ?_, fun {c y} hme hy hlt => ?_⟩
  · rcases hok.of_snoc with hold | ⟨id, es, ver, heq⟩
    · exact hsub (h.ok hme hold)
    · exact absurd heq (hret hme)
  · rw [hi hme] at hlt
    have hold : y ∈ E := by
      rcases hE with rfl | ⟨c₀, me, hme₀, rfl⟩
      · exact hy
      · -- the new entry is one its client is not through with
        refine (List.mem_append.mp hy).resolve_right (fun hnew => ?_)
        rw [List.mem_singleton.mp hnew] at hme hlt
        rw [S.distinct hme hme₀] at hlt
        exact Int.lt_irrefl _ hlt
    exact (h.told hme hold hlt).imp Returned.mono Returned.mono

/-- A Put in progress of a client in the loop. -/
theorem AppendOk.put_call {me : Int} {call : Call} {args : PutArgs} (h : AppendOk S E s) (hme : S.me c = some me)
    (hx : s.net.calls c = some call) (hop : call.op = .put args) :
    ∃ es, args = ⟨S.key, S.marshal (es ++ [⟨me, (s.client c).i⟩]), UInt64.ofNat (es.length + 1)⟩
      ∧ PutOk me E es (some call) (s.client c) := by
  rcases h.in_progress hme hx with ⟨_, hget, _⟩ | ⟨es, _, hput, _, _, _, hok⟩
  · rw [hop] at hget
    cases hget
  · rw [hop] at hput
    cases hput
    exact ⟨es, rfl, hok⟩

/-- A client in the loop goes past an entry only when its Put of that entry returns `OK` or `ErrMaybe`. -/
theorem AppendOk.passed {me : Int} {call : Call} {r : Reply} (h : AppendOk S E s) (hme : S.me c = some me)
    (hx : s.net.calls c = some call) (hserved : call.attempt = .served r) :
    (S.resume me (s.client c) (clerkResult call.retried r)).i = (s.client c).i
    ∨ ((S.resume me (s.client c) (clerkResult call.retried r)).i = (s.client c).i + 1
      ∧ (∃ es ver, call.op = .put ⟨S.key, S.marshal (es ++ [⟨me, (s.client c).i⟩]), ver⟩)
      ∧ (clerkResult call.retried r = .put ⟨.OK⟩ ∨ clerkResult call.retried r = .put ⟨.ErrMaybe⟩)) := by
  rcases h.in_progress hme hx with ⟨hpc, _, _, _, hreply⟩ | ⟨es, hpc, hop, _, _, _, hput⟩
  · obtain ⟨es, rfl, _, _⟩ := hreply r hserved
    refine Or.inl ?_
    simp [clerkResult, AppendSetup.resume, hpc]
  · rcases hput.result hserved with ⟨hres, _⟩ | ⟨hres, _⟩ | ⟨hres, _⟩
    · refine Or.inr ⟨?_, ⟨es, _, hop⟩, Or.inl hres⟩
      simp [hres, AppendSetup.resume, hpc]
    · refine Or.inr ⟨?_, ⟨es, _, hop⟩, Or.inr hres⟩
      simp [hres, AppendSetup.resume, hpc]
    · refine Or.inl ?_
      simp [hres, AppendSetup.resume, hpc]

/-- A Clerk call returns. -/
theorem ReturnsOk.ret {call : Call} {r : Reply} (hR : ReturnsOk S E tr s) (h : AppendOk S E s)
    (hx : s.net.calls c = some call) (hserved : call.attempt = .served r)
    (he : e = .rpc (.ret c call.id call.op (clerkResult call.retried r)))
    (hclient : s'.client = S.resumeAll s.client (.ret c call.id call.op (clerkResult call.retried r))) :
    ReturnsOk S E (tr ++ [e]) s' := by
  refine ⟨fun {c' me y} hme hok => ?_, fun {c' y} hme hy hlt => ?_⟩
  · rcases hok.of_snoc with hold | ⟨id, es, ver, heq⟩
    · exact hR.ok hme hold
    · -- the Put was of the next entry, and it is there
      rw [he] at heq
      simp only [AppendEvent.rpc.injEq, Event.ret.injEq] at heq
      obtain ⟨rfl, _, hop, hres⟩ := heq
      obtain ⟨es₀, hargs, hput⟩ := h.put_call hme hx hop
      obtain ⟨_, hlast⟩ := List.append_inj' (marshal_inj S (congrArg PutArgs.value hargs)) rfl
      obtain rfl : y = ⟨me, (s.client c).i⟩ := by simpa using hlast
      rcases hput.result hserved with ⟨_, _, _, hin⟩ | ⟨hres', _⟩ | ⟨hres', _⟩
      · exact hin
      · rw [hres] at hres'
        cases hres'
      · rw [hres] at hres'
        cases hres'
  · by_cases hc : c' = c
    · subst hc
      -- the client is past the entry already, or this return is what takes it past
      by_cases hold : y.n < (s.client c').i
      · exact (hR.told hme hy hold).imp Returned.mono Returned.mono
      · rw [hclient, resumeAll_self hme] at hlt
        rcases h.passed hme hx hserved with hi | ⟨hi, ⟨es, ver, hop⟩, hres⟩
        · rw [hi] at hlt
          exact absurd hlt hold
        · obtain ⟨yid, yn⟩ := y
          rw [hi] at hlt
          dsimp only at hlt hold hop
          obtain rfl : yn = (s.client c').i := by omega
          rw [he, hop]
          refine hres.imp (fun hres => ?_) (fun hres => ?_)
          · exact ⟨call.id, es, ver, by rw [hres]; simp⟩
          · exact ⟨call.id, es, ver, by rw [hres]; simp⟩
    · rw [hclient, resumeAll_ne (fun id op r heq => hc (by cases heq; rfl))] at hlt
      exact (hR.told hme hy hlt).imp Returned.mono Returned.mono

/-- **Every step keeps both**, what the list is and what the Puts returned. -/
theorem append_step (h : AppendOk S E s) (hR : ReturnsOk S E tr s) (hs : AppendStep S s e s')
    (hlate : ∀ id op r, e ≠ .rpc (.serveLate id op r)) :
    ∃ E', AppendOk S E' s' ∧ ReturnsOk S E' (tr ++ [e]) s' := by
  by_cases hret : ∃ c me id op r, S.me c = some me ∧ e = .rpc (.ret c id op r)
  · obtain ⟨c, me, id, op, r, hme, rfl⟩ := hret
    cases hs with
    | rpc hs hok =>
        obtain ⟨call, r₀, hx, hserved, rfl, rfl, rfl, rfl⟩ := step_ret hs
        exact ⟨E, h.ret hx hserved, hR.ret h hx hserved rfl rfl⟩
  · obtain ⟨E', hE', h'⟩ := h.step hs hlate
    refine ⟨E', h', hR.keep hE' (fun {c me} hme => ?_) (fun {c me id op r} hme heq => ?_)⟩
    · cases hs with
      | iterate _ _ => exact goto_i ..
      | stop _ _ => exact goto_i ..
      | rpc _ _ =>
          dsimp only
          rw [resumeAll_ne (fun id op r heq => hret ⟨c, me, id, op, r, hme, congrArg _ heq⟩)]
    · exact hret ⟨c, me, id, op, r, hme, heq⟩

end Returns

end KvSrv
end DistributedLabs
