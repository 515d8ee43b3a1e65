import DistributedLabs.KvSrv.Linearizable

/-!
# `KvSrv.Versions` — what versions count, and what a Get may be told

The version of a key is the number of Puts applied on it, so a version names one of them. Everything a caller
is told goes back to one handler run (`RepliesOk`), and the reply of a handler run is a matter of the store at
that moment (`serve_reply`), which `StoreOk` describes by the Puts applied so far. So a Get that is told version
`n` is told the value of the `n`-th applied Put, and a Get that begins after another one has returned is
answered from a later store.

How many Puts were applied can be read off the verdicts as well. A Put told `OK` was applied, a Put told
`ErrVersion` or `ErrNoKey` was not (`NoKeyOk`, for which nothing may run late), and no Put is applied twice, so
the version lies between the number of `OK`s and the number of `OK`s and `ErrMaybe`s.

The four parts come together in `version_accounting`. Two of its bounds matter: with `2 ^ 64` Puts on a key two of
them have one version, and with a request that runs late a Put told `ErrNoKey` may be applied after all
(`KvSrv.NoKey`).
-/

namespace DistributedLabs
namespace KvSrv

open Lib

/-! ## Replies come from handler runs -/

/-- What a call is about to be told, or was told, a handler run has said; and a call is in progress until it
    returns. -/
structure RepliesOk (tr : List Event) (s : State) : Prop where
  served : ∀ {c call r}, s.calls c = some call → call.attempt = .served r →
    .serve c call.id call.op r ∈ tr
  ret : ∀ {c id op r}, .ret c id op r ∈ tr → ∃ b r₀, r = clerkResult b r₀ ∧ .serve c id op r₀ ∈ tr
  serveInvoked : ∀ {c id op r}, .serve c id op r ∈ tr → .invoke c id op ∈ tr
  pending : ∀ {c id op}, .invoke c id op ∈ tr →
    (∃ call, s.calls c = some call ∧ call.id = id ∧ call.op = op) ∨ ∃ r, .ret c id op r ∈ tr

theorem repliesOk_init : RepliesOk [] net.init :=
  { served := fun h => by simp [net] at h
    ret := fun h => by simp at h
    serveInvoked := fun h => by simp at h
    pending := fun h => by simp at h }

section StepLemmas

variable {tr : List Event} {s s' : State} {e : Event}

/-- A handler run answers the current attempt of a call in progress from the store. -/
theorem step_serve {c : ClientId} {id : Nat} {op : Op} {r : Reply} (h : Step s (.serve c id op r) s') :
    ∃ call, s.calls c = some call ∧ call.attempt = .sent ∧ call.id = id ∧ call.op = op
      ∧ r = (s.kv.dispatch op).2
      ∧ s' = { s.setCall c (some { call with attempt := .served r }) with kv := (s.kv.dispatch op).1 } := by
  generalize he : Event.serve c id op r = e at h
  cases h with
  | @serve c₀ call hc hatt =>
      obtain ⟨rfl, rfl, rfl, rfl⟩ := Event.serve.inj he
      exact ⟨call, hc, hatt, rfl, rfl, rfl, rfl⟩
  | _ => cases he

/-- A call whose attempt has just been executed can return at once. -/
theorem ret_of_serve {c : ClientId} {id : Nat} {op : Op} {r : Reply} (h : Step s (.serve c id op r) s')
    (hsure : ∀ retried, clerkResult retried r = r) : Step s' (.ret c id op r) (s'.setCall c none) := by
  obtain ⟨call, _, _, rfl, rfl, _, rfl⟩ := step_serve h
  have hret := Step.ret (s := { s.setCall c (some { call with attempt := .served r }) with
    kv := (s.kv.dispatch call.op).1 }) (setCall_calls_self ..) rfl
  rw [hsure] at hret
  exact hret

/-- A new call is in progress. -/
theorem step_invoke {c : ClientId} {id : Nat} {op : Op} (h : Step s (.invoke c id op) s') :
    id = s.nextId ∧ s'.calls c = some ⟨id, op, false, .sent⟩ := by
  generalize he : Event.invoke c id op = e at h
  cases h with
  | invoke _ =>
      obtain ⟨rfl, rfl, rfl⟩ := Event.invoke.inj he
      exact ⟨rfl, Function.update_self ..⟩
  | _ => cases he

/-- What is about to be told after a step was said in it or before. -/
theorem repliesOk_served (hR : RepliesOk tr s) (hs : Step s e s') {c : ClientId} {call' : Call} {r : Reply}
    (hc' : s'.calls c = some call') (hr : call'.attempt = .served r) :
    .serve c call'.id call'.op r ∈ tr ++ [e] := by
  rcases step_calls hs hc' with ⟨_, _, rfl, _⟩ | ⟨call, hc, hmove⟩
  · cases hr
  · cases hmove with
    | same => exact List.mem_append_left _ (hR.served hc hr)
    | served _ he =>
        obtain rfl := Attempt.served.inj hr
        rw [he]
        exact List.mem_append_right _ (List.mem_singleton_self _)
    | resent => cases hr

theorem repliesOk_pending (hR : RepliesOk tr s) (hs : Step s e s') {c : ClientId} {id : Nat} {op : Op}
    (hinv : .invoke c id op ∈ tr ++ [e]) :
    (∃ call, s'.calls c = some call ∧ call.id = id ∧ call.op = op) ∨ ∃ r, .ret c id op r ∈ tr ++ [e] := by
  rcases List.mem_append.mp hinv with hold | hnew
  · rcases hR.pending hold with ⟨call, hc, rfl, rfl⟩ | ⟨r, hret⟩
    · rcases step_call_kept hs hc with ⟨call', hc', hid, hop⟩ | ⟨r, _, rfl, _⟩
      · exact Or.inl ⟨call', hc', hid, hop⟩
      · exact Or.inr ⟨_, List.mem_append_right _ (List.mem_singleton_self _)⟩
    · exact Or.inr ⟨r, List.mem_append_left _ hret⟩
  · obtain rfl := List.mem_singleton.mp hnew
    exact Or.inl ⟨_, (step_invoke hs).2, rfl, rfl⟩

theorem repliesOk_step (hC : CallsOk tr s) (hR : RepliesOk tr s) (hs : Step s e s') :
    RepliesOk (tr ++ [e]) s' := by
  refine ⟨repliesOk_served hR hs, ?_, ?_, repliesOk_pending hR hs⟩
  · intro c id op r hret
    rcases List.mem_append.mp hret with hold | hnew
    · obtain ⟨b, r₀, hr, hserve⟩ := hR.ret hold
      exact ⟨b, r₀, hr, List.mem_append_left _ hserve⟩
    · obtain rfl := List.mem_singleton.mp hnew
      obtain ⟨call, r₀, hc, hatt, rfl, rfl, hr, _⟩ := step_ret hs
      exact ⟨call.retried, r₀, hr, List.mem_append_left _ (hR.served hc hatt)⟩
  · intro c id op r hserve
    rcases List.mem_append.mp hserve with hold | hnew
    · exact List.mem_append_left _ (hR.serveInvoked hold)
    · obtain rfl := List.mem_singleton.mp hnew
      obtain ⟨call, hc, _, rfl, rfl, _⟩ := step_serve hs
      exact List.mem_append_left _ (hC.invoked hc)

end StepLemmas

theorem repliesOk {tr : List Event} {s : State} (h : Reaches net tr s) : RepliesOk tr s :=
  Reaches.invariant repliesOk_init (fun _ _ _ _ hr ih hs => repliesOk_step (callsOk hr) ih hs) h

/-! ## What a Get is told -/

theorem appliedOn_append (tr tr' : List Event) (k : String) :
    appliedOn (tr ++ tr') k = appliedOn tr k ++ appliedOn tr' k := by
  simp [appliedOn, applied_append]

section Gets

variable {tr : List Event} {s : State} {k : String}

/-- The reply of a handler run is the server's answer at that moment. -/
theorem serve_reply (hrun : Reaches net tr s) {c : ClientId} {id : Nat} {op : Op} {r : Reply}
    (hmem : .serve c id op r ∈ tr) :
    ∃ pre post s₁, tr = pre ++ .serve c id op r :: post ∧ Reaches net pre s₁
      ∧ r = (s₁.kv.dispatch op).2 := by
  obtain ⟨pre, post, rfl⟩ := List.append_of_mem hmem
  obtain ⟨s₁, s₂, hpre, hs, _⟩ := Run.split_cons hrun
  obtain ⟨_, _, _, _, _, hr, _⟩ := step_serve hs
  exact ⟨pre, post, s₁, rfl, hpre, hr⟩

/-- A Get is answered with the number and the value of the last Put applied on the key. -/
theorem StoreOk.get_eq (h : StoreOk tr s) (k : String) :
    s.kv.get ⟨k⟩ = match (appliedOn tr k).getLast? with
      | none => { err := .ErrNoKey }
      | some p => { value := p.2.value, version := UInt64.ofNat (appliedOn tr k).length, err := .OK } := by
  unfold KVServer.get
  rw [h.store k, entryOf]
  cases (appliedOn tr k).getLast? <;> rfl

/-- The reply is that of a Get executed when exactly the Puts of `l` had been applied on its key. -/
def GetReply.ReadFrom (r : GetReply) (l : List (Nat × PutArgs)) : Prop :=
  ∃ p, l.getLast? = some p ∧ r.value = p.2.value ∧ r.version = UInt64.ofNat l.length

theorem GetReply.ReadFrom.pos {r : GetReply} {l : List (Nat × PutArgs)} (h : r.ReadFrom l) :
    0 < l.length := by
  obtain ⟨p, hlast, _⟩ := h
  exact List.length_pos_of_mem (List.mem_of_getLast? hlast)

/-- A Get that is answered `OK` now reads from the Puts applied up to now. -/
theorem readFrom_of_get (h : StoreOk tr s) (hok : (s.kv.get ⟨k⟩).err = .OK) :
    (s.kv.get ⟨k⟩).ReadFrom (appliedOn tr k) := by
  rw [h.get_eq k] at hok ⊢
  cases hlast : (appliedOn tr k).getLast? with
  | none => simp [hlast] at hok
  | some p => exact ⟨p, hlast, rfl, rfl⟩

/-- A Get is answered `OK` exactly when something has been applied on the key. -/
theorem get_ok_of_applied (h : StoreOk tr s) (hpos : 0 < (appliedOn tr k).length) :
    (s.kv.get ⟨k⟩).err = .OK := by
  rw [h.get_eq k]
  cases hlast : (appliedOn tr k).getLast? with
  | none =>
      rw [List.getLast?_eq_none_iff] at hlast
      simp [hlast] at hpos
  | some p => rfl

/-- A handler has answered a Get of the key, or a caller was told so. -/
def GetReplied (tr : List Event) (k : String) (r : GetReply) : Prop :=
  (∃ c id, .serve c id (.get ⟨k⟩) (.get r) ∈ tr) ∨ ∃ c id, .ret c id (.get ⟨k⟩) (.get r) ∈ tr

theorem clerkResult_get {b : Bool} {r₀ : Reply} {r : GetReply} (h : .get r = clerkResult b r₀) :
    r₀ = .get r := by
  cases r₀ with
  | get r' => exact h.symm
  | put r' => cases h

theorem GetReplied.served (hrun : Reaches net tr s) {r : GetReply} (h : GetReplied tr k r) :
    ∃ c id, .serve c id (.get ⟨k⟩) (.get r) ∈ tr := by
  rcases h with hserve | ⟨c, id, hret⟩
  · exact hserve
  · obtain ⟨b, r₀, hr, hserve⟩ := (repliesOk hrun).ret hret
    obtain rfl := clerkResult_get hr
    exact ⟨c, id, hserve⟩

/-- A Get that was answered `OK` was answered from the Puts applied at some moment before. -/
theorem GetReplied.readFrom (hrun : Reaches net tr s) {r : GetReply} (h : GetReplied tr k r)
    (hok : r.err = .OK) : ∃ pre post, tr = pre ++ post ∧ r.ReadFrom (appliedOn pre k) := by
  obtain ⟨c, id, hserve⟩ := h.served hrun
  obtain ⟨pre, post, s₁, rfl, hpre, hr⟩ := serve_reply hrun hserve
  obtain rfl : r = s₁.kv.get ⟨k⟩ := Reply.get.inj hr
  exact ⟨pre, _, rfl, readFrom_of_get (storeOk hpre) hok⟩

theorem toNat_ofNat_length {n m : Nat} (hle : n ≤ m) (hfew : m < 2 ^ 64) : (UInt64.ofNat n).toNat = n :=
  UInt64.toNat_ofNat_of_lt' (Nat.lt_of_le_of_lt hle hfew)

/-- A version names an applied Put, and a Get that reports it reports the value of that Put. -/
theorem GetReplied.value (hrun : Reaches net tr s) (hfew : (appliedOn tr k).length < 2 ^ 64) {r : GetReply}
    (h : GetReplied tr k r) (hok : r.err = .OK) :
    1 ≤ r.version.toNat ∧ ∃ p, (appliedOn tr k)[r.version.toNat - 1]? = some p ∧ r.value = p.2.value := by
  obtain ⟨pre, post, rfl, hread⟩ := h.readFrom hrun hok
  have hpos := hread.pos
  obtain ⟨p, hlast, hvalue, hversion⟩ := hread
  have hle := appliedOn_length_le pre post k
  rw [hversion, toNat_ofNat_length hle hfew]
  refine ⟨hpos, p, ?_, hvalue⟩
  rw [appliedOn_append, List.getElem?_append_left (by omega), ← List.getLast?_eq_getElem?]
  exact hlast

/-- A Get that begins after a Get of the same key has returned is answered from no fewer Puts. -/
theorem get_monotone {tr₁ tr₂ : List Event} {c c' : ClientId} {id id' : Nat} {r r' : GetReply}
    (hrun : Reaches net (tr₁ ++ .invoke c' id' (.get ⟨k⟩) :: tr₂) s)
    (hfew : (appliedOn (tr₁ ++ .invoke c' id' (.get ⟨k⟩) :: tr₂) k).length < 2 ^ 64)
    (hfirst : .ret c id (.get ⟨k⟩) (.get r) ∈ tr₁) (hok : r.err = .OK)
    (hsecond : .ret c' id' (.get ⟨k⟩) (.get r') ∈ tr₂) :
    r'.err = .OK ∧ r.version.toNat ≤ r'.version.toNat := by
  obtain ⟨s₁, s₂, hpre, hinv, hpost⟩ := Run.split_cons hrun
  -- the first Get was answered before the second began
  obtain ⟨pre, post, rfl, hread⟩ := GetReplied.readFrom hpre (Or.inr ⟨c, id, hfirst⟩) hok
  -- the second one was answered after it began, since its number was new
  obtain ⟨b, r₀, hr₀, hserve⟩ := (repliesOk hrun).ret
    (List.mem_append_right _ (List.mem_cons_of_mem _ hsecond))
  obtain rfl := clerkResult_get hr₀
  have hlater : .serve c' id' (.get ⟨k⟩) (.get r') ∈ tr₂ := by
    rcases List.mem_append.mp hserve with hearly | hrest
    · have hlt := (callsOk hpre).idLt ((repliesOk hpre).serveInvoked hearly)
      rw [(step_invoke hinv).1] at hlt
      exact absurd hlt (Nat.lt_irrefl _)
    · rcases List.mem_cons.mp hrest with heq | hlater
      · cases heq
      · exact hlater
  obtain ⟨mid, post', rfl⟩ := List.append_of_mem hlater
  rw [← List.cons_append, ← List.append_assoc] at hrun hfew
  obtain ⟨s₃, s₄, hmid, hs, _⟩ := Run.split_cons hrun
  obtain ⟨_, _, _, _, _, hr', _⟩ := step_serve hs
  obtain rfl : r' = s₃.kv.get ⟨k⟩ := Reply.get.inj hr'
  have hstore := storeOk hmid
  have hle : (appliedOn pre k).length
      ≤ (appliedOn (pre ++ post ++ .invoke c' id' (.get ⟨k⟩) :: mid) k).length := by
    rw [List.append_assoc]
    exact appliedOn_length_le _ _ k
  have hle' := appliedOn_length_le (pre ++ post ++ .invoke c' id' (.get ⟨k⟩) :: mid)
    (.serve c' id' (.get ⟨k⟩) (.get (s₃.kv.get ⟨k⟩)) :: post') k
  have hok' := get_ok_of_applied hstore (k := k) (Nat.lt_of_lt_of_le hread.pos hle)
  obtain ⟨_, _, _, hversion⟩ := hread
  obtain ⟨_, _, _, hversion'⟩ := readFrom_of_get hstore hok'
  refine ⟨hok', ?_⟩
  rw [hversion, hversion', toNat_ofNat_length (Nat.le_trans hle hle') hfew, toNat_ofNat_length hle' hfew]
  exact hle

end Gets

/-! ## What the verdicts say about the number of Puts -/

/-- With nothing run late, a Put told `ErrNoKey` was not applied: the key was absent when it was answered, and
    nothing of the call has run since. -/
structure NoKeyOk (tr : List Event) (s : State) : Prop where
  served : ∀ {c call}, s.calls c = some call → call.attempt = .served (.put ⟨.ErrNoKey⟩) →
    timesApplied tr call.id = 0
  ret : ∀ {c id op}, .ret c id op (.put ⟨.ErrNoKey⟩) ∈ tr → timesApplied tr id = 0

theorem noKeyOk_init : NoKeyOk [] net.init :=
  { served := fun h => by simp [net] at h
    ret := fun h => by simp at h }

/-- `ErrNoKey` is said to a Put whose key is missing. -/
theorem dispatch_noKey {kv : KVServer} {op : Op} (h : (kv.dispatch op).2 = .put ⟨.ErrNoKey⟩) :
    ∃ args, op = .put args ∧ kv.kvStore args.key = none := by
  cases op with
  | get args => cases h
  | put args =>
      refine ⟨args, rfl, ?_⟩
      by_contra hk
      have hpresent : kv.kvStore args.key ≠ none := hk
      rcases dispatch_present hpresent with hok | hversion
      · rw [h] at hok
        cases hok
      · rw [h] at hversion
        cases hversion

section Counting

variable {tr : List Event} {s s' : State} {e : Event} {k : String}

theorem LateFree.left {tr' : List Event} (h : LateFree (tr ++ tr')) : LateFree tr :=
  fun id op r hmem => h id op r (List.mem_append_left _ hmem)

/-- With nothing run late, what a step applies is the attempt of a call in progress. -/
theorem applied_in_progress (hs : Step s e s') (hlate : LateFree (tr ++ [e])) {id : Nat} {args : PutArgs}
    (ha : e.applied = some (id, args)) :
    ∃ c call, s.calls c = some call ∧ call.attempt = .sent ∧ call.id = id := by
  rcases step_applied hs ha with ⟨c, call, hc, hsent, hid, _⟩ | ⟨_, rfl, _⟩
  · exact ⟨c, call, hc, hsent, hid⟩
  · exact absurd (List.mem_append_right _ (List.mem_singleton_self _)) (hlate _ _ _)

/-- An attempt that was answered `ErrNoKey` found the key missing, so no earlier one was applied. -/
theorem noKeyOk_served (hC : CallsOk tr s) (hS : StoreOk tr s) (hN : NoKeyOk tr s) (hs : Step s e s')
    (hlate : LateFree (tr ++ [e])) {c : ClientId} {call' : Call} (hc' : s'.calls c = some call')
    (hr : call'.attempt = .served (.put ⟨.ErrNoKey⟩)) : timesApplied (tr ++ [e]) call'.id = 0 := by
  rcases step_calls hs hc' with ⟨_, _, rfl, _⟩ | ⟨call, hc, hmove⟩
  · cases hr
  · cases hmove with
    | same =>
        rw [timesApplied_step_eq (fun args ha => ?_)]
        · exact hN.served hc hr
        · obtain ⟨c₁, call₁, hc₁, hsent, hid⟩ := applied_in_progress hs hlate ha
          obtain rfl := hC.client_eq hc₁ hc hid
          obtain rfl := Option.some.inj (hc₁.symm.trans hc)
          rw [hr] at hsent
          cases hsent
    | served _ he =>
        have hrep : (s.kv.dispatch call.op).2 = .put ⟨.ErrNoKey⟩ := Attempt.served.inj hr
        obtain ⟨args, hop, habsent⟩ := dispatch_noKey hrep
        have hnone : e.applied = none := by
          rw [he, hrep]
          simp [Event.applied, appliedPut_eq_none]
        have hinv := hC.invoked hc
        rw [hop] at hinv
        rw [timesApplied_snoc_none hnone]
        exact timesApplied_of_absent hC hS hinv habsent
    | resent => cases hr

theorem noKeyOk_step (hC : CallsOk tr s) (hS : StoreOk tr s) (hV : VerdictOk tr s) (hN : NoKeyOk tr s)
    (hs : Step s e s') (hlate : LateFree (tr ++ [e])) : NoKeyOk (tr ++ [e]) s' := by
  refine ⟨noKeyOk_served hC hS hN hs hlate, ?_⟩
  intro c id op hret
  rcases List.mem_append.mp hret with hold | hnew
  · rw [timesApplied_step_eq (fun args ha => ?_)]
    · exact hN.ret hold
    · obtain ⟨c₁, call₁, hc₁, _, hid⟩ := applied_in_progress hs hlate ha
      exact hV.done hold hc₁ hid
  · obtain rfl := List.mem_singleton.mp hnew
    obtain ⟨call, r₀, hc, hatt, rfl, _, hr, _⟩ := step_ret hs
    rw [(clerkResult_put hr.symm (by decide)).1] at hatt
    rw [timesApplied_snoc_none rfl]
    exact hN.served hc hatt

theorem noKeyOk (hrun : Reaches net tr s) (hlate : LateFree tr) : NoKeyOk tr s := by
  refine Reaches.invariant (P := fun tr s => LateFree tr → NoKeyOk tr s) (fun _ => noKeyOk_init) ?_ hrun hlate
  intro tr s e s' hrun ih hs hlate
  exact noKeyOk_step (callsOk hrun) (storeOk hrun) (verdictOk hrun) (ih hlate.left) hs hlate

/-- The number of a `Clerk.Put` on a key that an event ends with the given verdict. -/
def Event.putReturn (k : String) (err : Err) : Event → Option Nat
  | .ret _ id (.put args) (.put r) => if args.key = k ∧ r.err = err then some id else none
  | _ => none

/-- The `Clerk.Put` calls on a key that returned the given verdict, by number. -/
def putReturns (tr : List Event) (k : String) (err : Err) : List Nat := tr.filterMap (Event.putReturn k err)

theorem putReturn_eq_some {err : Err} {id : Nat} :
    e.putReturn k err = some id
      ↔ ∃ c args, args.key = k ∧ e = .ret c id (.put args) (.put ⟨err⟩) := by
  constructor
  · intro h
    unfold Event.putReturn at h
    split at h
    · rename_i c id' args r
      simp only [Option.ite_none_right_eq_some, Option.some.injEq] at h
      obtain ⟨⟨hk, hr⟩, rfl⟩ := h
      obtain ⟨err'⟩ := r
      obtain rfl : err' = err := hr
      exact ⟨c, args, hk, rfl⟩
    · cases h
  · rintro ⟨c, args, rfl, rfl⟩
    exact if_pos ⟨rfl, rfl⟩

theorem mem_putReturns {err : Err} {id : Nat} :
    id ∈ putReturns tr k err ↔ ∃ c args, args.key = k ∧ .ret c id (.put args) (.put ⟨err⟩) ∈ tr := by
  unfold putReturns
  rw [List.mem_filterMap]
  constructor
  · rintro ⟨e, he, hid⟩
    obtain ⟨c, args, hk, rfl⟩ := putReturn_eq_some.mp hid
    exact ⟨c, args, hk, he⟩
  · rintro ⟨c, args, hk, hret⟩
    exact ⟨_, hret, putReturn_eq_some.mpr ⟨c, args, hk, rfl⟩⟩

/-- A call returns once. -/
theorem putReturns_nodup (hrun : Reaches net tr s) (k : String) (err : Err) : (putReturns tr k err).Nodup := by
  refine Reaches.invariant (P := fun tr _ => (putReturns tr k err).Nodup) List.nodup_nil ?_ hrun
  intro tr s e s' hrun ih hs
  have hsnoc : putReturns (tr ++ [e]) k err = putReturns tr k err ++ (e.putReturn k err).toList :=
    filterMap_snoc (Event.putReturn k err) tr e
  rw [hsnoc]
  cases he : e.putReturn k err with
  | none => simpa using ih
  | some id =>
      obtain ⟨c, args, _, rfl⟩ := putReturn_eq_some.mp he
      obtain ⟨call, _, hc, _, hid, _⟩ := step_ret hs
      refine List.Nodup.append ih (List.nodup_singleton id) ?_
      -- a call that has returned is not in progress
      intro id' hold hnew
      obtain rfl := List.mem_singleton.mp hnew
      obtain ⟨_, _, _, hret⟩ := mem_putReturns.mp hold
      exact (verdictOk hrun).done hret hc hid

/-- The verdicts of a Put. -/
theorem put_verdict_cases (hrun : Reaches net tr s) {c : ClientId} {id : Nat} {args : PutArgs} {r : Reply}
    (hret : .ret c id (.put args) r ∈ tr) :
    ∃ err, r = .put ⟨err⟩ ∧ (err = .OK ∨ err = .ErrMaybe ∨ err = .ErrVersion ∨ err = .ErrNoKey) := by
  obtain ⟨b, r₀, rfl, hserve⟩ := (repliesOk hrun).ret hret
  obtain ⟨_, _, s₁, _, _, rfl⟩ := serve_reply hrun hserve
  have hresult : ∀ err, (err = .OK ∨ err = .ErrVersion ∨ err = .ErrNoKey) →
      putResult b ⟨err⟩ = .OK ∨ putResult b ⟨err⟩ = .ErrMaybe ∨ putResult b ⟨err⟩ = .ErrVersion
        ∨ putResult b ⟨err⟩ = .ErrNoKey := by
    rintro err (rfl | rfl | rfl) <;> cases b <;> simp [putResult]
  refine ⟨_, rfl, hresult _ ?_⟩
  by_cases hv : args.version = s₁.kv.currentVersion args.key
  · rw [put_of_current hv]
    exact Or.inl rfl
  · rw [put_of_not_current hv]
    by_cases hk : s₁.kv.kvStore args.key = none <;> simp [hk]

/-- Each `OK` is for an applied Put of its own. -/
theorem okReturns_le (hrun : Reaches net tr s) : (putReturns tr k .OK).length ≤ (appliedOn tr k).length := by
  have hsub : putReturns tr k .OK ⊆ (appliedOn tr k).map Prod.fst := by
    intro id hid
    obtain ⟨c, args, rfl, hret⟩ := mem_putReturns.mp hid
    have hV := verdictOk hrun
    have hone := hV.retOk hret
    rw [(callsOk hrun).timesApplied_eq (hV.retInvoked hret)] at hone
    obtain ⟨p, hp, heq⟩ := List.countP_pos_iff.mp hone
    exact List.mem_map.mpr ⟨p, hp, by simpa using heq⟩
  have hle := ((putReturns_nodup hrun k .OK).subperm hsub).length_le
  rwa [List.length_map] at hle

/-- Each applied Put was by a call that was told `OK` or `ErrMaybe`, if all calls on the key have returned and none
    that was told `ErrNoKey` was applied. -/
theorem appliedOn_le_returns_of (hrun : Reaches net tr s) (hfew : (appliedOn tr k).length < 2 ^ 64)
    (hnoKey : ∀ {c id args}, .ret c id (.put args) (.put ⟨.ErrNoKey⟩) ∈ tr → args.key = k → timesApplied tr id = 0)
    (hidle : ∀ c call args, s.calls c = some call → call.op = .put args → args.key ≠ k) :
    (appliedOn tr k).length ≤ (putReturns tr k .OK).length + (putReturns tr k .ErrMaybe).length := by
  have hC := callsOk hrun
  have hsub : (appliedOn tr k).map Prod.fst ⊆ putReturns tr k .OK ++ putReturns tr k .ErrMaybe := by
    intro id hid
    obtain ⟨p, hp, rfl⟩ := List.mem_map.mp hid
    obtain ⟨rfl, c, hinv⟩ := hC.appliedOn_invoked hp
    have happlied : timesApplied tr p.1 ≠ 0 := by
      rw [hC.timesApplied_eq hinv]
      exact Nat.ne_of_gt (List.countP_pos_iff.mpr ⟨p, hp, by simp⟩)
    rcases (repliesOk hrun).pending hinv with ⟨call, hc, _, hop⟩ | ⟨r, hret⟩
    · exact absurd rfl (hidle c call p.2 hc hop)
    · obtain ⟨err, rfl, herr⟩ := put_verdict_cases hrun hret
      rcases herr with rfl | rfl | rfl | rfl
      · exact List.mem_append_left _ (mem_putReturns.mpr ⟨c, p.2, rfl, hret⟩)
      · exact List.mem_append_right _ (mem_putReturns.mpr ⟨c, p.2, rfl, hret⟩)
      · exact absurd ((verdictOk hrun).retVersion hret).1 happlied
      · exact absurd (hnoKey hret rfl) happlied
  have hle := ((appliedOn_ids_nodup hC (storeOk hrun) (Nat.le_of_lt hfew)).subperm hsub).length_le
  rwa [List.length_map, List.length_append] at hle

/-- When no call on the key is in progress, there are no more applied Puts than `OK`s and `ErrMaybe`s. -/
theorem appliedOn_le_returns (hrun : Reaches net tr s) (hlate : LateFree tr)
    (hfew : (appliedOn tr k).length < 2 ^ 64)
    (hidle : ∀ c call args, s.calls c = some call → call.op = .put args → args.key ≠ k) :
    (appliedOn tr k).length ≤ (putReturns tr k .OK).length + (putReturns tr k .ErrMaybe).length :=
  appliedOn_le_returns_of hrun hfew (fun hret _ => (noKeyOk hrun hlate).ret hret) hidle

end Counting

/-! ## Version accounting -/

theorem present_run {s s' : State} {tr : List Event} {k : String} (hrun : Run net s tr s')
    (hk : s.kv.kvStore k ≠ none) : s'.kv.kvStore k ≠ none := by
  induction hrun with
  | nil => exact hk
  | snoc _ hs ih => exact step_present hs ih

/-- **Version accounting**, for a key on which fewer than `2 ^ 64` Puts were applied, with nothing run late: the
    key stays present; its version is the number of Puts applied on it and its value that of the last one; a
    Get is told a version together with the value of the Put of that number, so equal versions come with
    equal values; versions told to Gets one after another do not decrease; and while no Put on the key is in
    progress the version lies between the number of `OK`s and that of `OK`s and `ErrMaybe`s. -/
theorem version_accounting {tr : List Event} {s : State} (hrun : Reaches net tr s) (hlate : LateFree tr)
    {k : String} (hfew : (appliedOn tr k).length < 2 ^ 64) :
    (s.kv.kvStore k ≠ none → ∀ tr' s', Run net s tr' s' → s'.kv.kvStore k ≠ none)
    ∧ (s.kv.currentVersion k).toNat = (appliedOn tr k).length
    ∧ (s.kv.kvStore k).map KVStoreEntry.value = (appliedOn tr k).getLast?.map (fun p => p.2.value)
    ∧ (∀ r, GetReplied tr k r → r.err = .OK → 1 ≤ r.version.toNat
        ∧ (appliedOn tr k)[r.version.toNat - 1]?.map (fun p => p.2.value) = some r.value)
    ∧ (∀ r r', GetReplied tr k r → r.err = .OK → GetReplied tr k r' → r'.err = .OK →
        r.version = r'.version → r.value = r'.value)
    ∧ (∀ tr₁ tr₂ c id r c' id' r', tr = tr₁ ++ .invoke c' id' (.get ⟨k⟩) :: tr₂ →
        .ret c id (.get ⟨k⟩) (.get r) ∈ tr₁ → r.err = .OK → .ret c' id' (.get ⟨k⟩) (.get r') ∈ tr₂ →
        r'.err = .OK ∧ r.version.toNat ≤ r'.version.toNat)
    ∧ ((∀ c call args, s.calls c = some call → call.op = .put args → args.key ≠ k) →
        (putReturns tr k .OK).length ≤ (s.kv.currentVersion k).toNat
        ∧ (s.kv.currentVersion k).toNat
          ≤ (putReturns tr k .OK).length + (putReturns tr k .ErrMaybe).length) := by
  have hstore := storeOk hrun
  have hversion : (s.kv.currentVersion k).toNat = (appliedOn tr k).length := by
    rw [hstore.currentVersion]
    exact toNat_ofNat_length (Nat.le_refl _) hfew
  refine ⟨fun hk tr' s' hlater => present_run hlater hk, hversion, ?_, ?_, ?_, ?_, ?_⟩
  · rw [hstore.store k, entryOf, Option.map_map]
    rfl
  · intro r hr hok
    obtain ⟨hpos, p, hp, hvalue⟩ := hr.value hrun hfew hok
    exact ⟨hpos, by rw [hp, hvalue]; rfl⟩
  -- one version names one applied Put, so both Gets have its value
  · intro r r' hr hok hr' hok' heq
    obtain ⟨_, p, hp, hvalue⟩ := hr.value hrun hfew hok
    obtain ⟨_, p', hp', hvalue'⟩ := hr'.value hrun hfew hok'
    rw [heq] at hp
    obtain rfl := Option.some.inj (hp.symm.trans hp')
    rw [hvalue, hvalue']
  · rintro tr₁ tr₂ c id r c' id' r' rfl hfirst hok hsecond
    exact get_monotone hrun hfew hfirst hok hsecond
  · intro hidle
    rw [hversion]
    exact ⟨okReturns_le hrun, appliedOn_le_returns hrun hlate hfew hidle⟩

/-- The run in which a lost reply makes a Put end with `ErrMaybe`: the version is 2, with one `OK`. -/
theorem version_accounting_maybeTrace :
    ∃ s, Reaches net maybeTrace s ∧ (s.kv.currentVersion "k").toNat = 2
      ∧ (putReturns maybeTrace "k" .OK).length = 1 ∧ (putReturns maybeTrace "k" .ErrMaybe).length = 1
      ∧ (s.kv.currentVersion "k").toNat
        ≤ (putReturns maybeTrace "k" .OK).length + (putReturns maybeTrace "k" .ErrMaybe).length := by
  obtain ⟨s, hrun⟩ : ∃ s, Reaches net maybeTrace s := exists_reaches_of_exec net_computedBy (by decide)
  have hlate : LateFree maybeTrace := by
    intro id op r h
    simp [maybeTrace] at h
  have htwo : (appliedOn maybeTrace "k").length = 2 := by decide
  have hfew : (appliedOn maybeTrace "k").length < 2 ^ 64 := by
    rw [htwo]
    decide
  obtain ⟨_, hversion, _, _, _, _, hbounds⟩ := version_accounting hrun hlate hfew
  refine ⟨s, hrun, hversion.trans htwo, by decide, by decide, (hbounds ?_).2⟩
  -- both calls have returned
  intro c call args hc _
  have hinv := (callsOk hrun).invoked hc
  have hids : call.id = 0 ∨ call.id = 1 := by
    simp only [maybeTrace, List.mem_cons, Event.invoke.injEq, reduceCtorEq, List.not_mem_nil, or_false,
      false_or] at hinv
    exact hinv.imp (fun h => h.2.1) (fun h => h.2.1)
  have hret₀ : .ret 0 0 (.put ⟨"k", "x", 0⟩) (.put ⟨.ErrMaybe⟩) ∈ maybeTrace := by decide
  have hret₁ : .ret 1 1 (.put ⟨"k", "y", 1⟩) (.put ⟨.OK⟩) ∈ maybeTrace := by decide
  rcases hids with hid | hid
  · exact absurd hid ((verdictOk hrun).done hret₀ hc)
  · exact absurd hid ((verdictOk hrun).done hret₁ hc)

end KvSrv
end DistributedLabs
