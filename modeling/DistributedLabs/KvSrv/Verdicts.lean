import DistributedLabs.KvSrv.Accounting

/-!
# `KvSrv.Verdicts` — what a `Clerk.Put` tells its caller

The comment on `Clerk.Put` promises that a first-try `ErrVersion` means "definitely not performed", and
that only a resent Put is answered `ErrMaybe`. The server keeps no record of clients, so the promise has
to come out of the version check and the Clerk's one bit `retried`. `VerdictOk` is the invariant that ties
them together along a run:

* a call that has never retried has no request out late, and nothing of it has been applied unless the
  reply it is about to read says `OK`;
* a call that returned has left no attempt of its own behind when its verdict was `ErrVersion`.

`put_run` is the same bookkeeping from the moment of one invocation on, for a Put that started from the
current version with nobody else writing its key.

The two are put together in `put_verdicts_exact`. It speaks of all attempts of a call, also of one that runs after
the call has returned: that is why `VerdictOk` keeps an eye on what is out late.
-/

namespace DistributedLabs
namespace KvSrv

open Lib

/-- The verdict invariant. -/
structure VerdictOk (tr : List Event) (s : State) : Prop where
  firstLate : ∀ {c call}, s.calls c = some call → call.retried = false → ∀ op, (call.id, op) ∉ s.late
  firstSent : ∀ {c call}, s.calls c = some call → call.retried = false → call.attempt = .sent →
    timesApplied tr call.id = 0
  firstServed : ∀ {c call r}, s.calls c = some call → call.retried = false →
    call.attempt = .served r → r ≠ .put ⟨.OK⟩ → timesApplied tr call.id = 0
  servedOk : ∀ {c call}, s.calls c = some call → call.attempt = .served (.put ⟨.OK⟩) →
    1 ≤ timesApplied tr call.id
  done : ∀ {c id op r}, .ret c id op r ∈ tr → ∀ {c' call}, s.calls c' = some call → call.id ≠ id
  retInvoked : ∀ {c id op r}, .ret c id op r ∈ tr → .invoke c id op ∈ tr
  retOk : ∀ {c id op}, .ret c id op (.put ⟨.OK⟩) ∈ tr → 1 ≤ timesApplied tr id
  retVersion : ∀ {c id op}, .ret c id op (.put ⟨.ErrVersion⟩) ∈ tr →
    timesApplied tr id = 0 ∧ ∀ op', (id, op') ∉ s.late

theorem verdictOk_init : VerdictOk [] net.init :=
  { firstLate := fun h => by simp [net] at h
    firstSent := fun h => by simp [net] at h
    firstServed := fun h => by simp [net] at h
    servedOk := fun h => by simp [net] at h
    done := fun h => by simp at h
    retInvoked := fun h => by simp at h
    retOk := fun h => by simp at h
    retVersion := fun h => by simp at h }

/-! ## Reading a Clerk's result back -/

/-- A verdict other than `ErrMaybe` is the reply of the last attempt, and `ErrVersion` is one only of a call that
    never retried. -/
theorem clerkResult_put {b : Bool} {r : Reply} {err : Err} (h : clerkResult b r = .put ⟨err⟩)
    (hsure : err ≠ .ErrMaybe) : r = .put ⟨err⟩ ∧ (err = .ErrVersion → b = false) := by
  cases r with
  | get r => cases h
  | put r =>
      have herr : putResult b r = err := congrArg PutReply.err (Reply.put.inj h)
      unfold putResult at herr
      split at herr
      case isTrue => exact absurd herr.symm hsure
      case isFalse hcond =>
          subst herr
          exact ⟨rfl, fun hversion => Bool.eq_false_iff.mpr (fun hb => hcond ⟨hversion, hb⟩)⟩

/-! ## The invariant is kept -/

section StepLemmas

variable {tr : List Event} {s s' : State} {e : Event}

/-- A call that has not retried, and whose attempt this step does not serve, has nothing applied by this
    step: the only other request that could is one out late, and it has none. -/
theorem VerdictOk.not_applied (hC : CallsOk tr s) (hV : VerdictOk tr s) (hs : Step s e s')
    {c : ClientId} {call : Call} (hc : s.calls c = some call) (hfirst : call.retried = false)
    (hsame : s'.calls c = some call) (args : PutArgs) : e.applied ≠ some (call.id, args) := by
  intro ha
  rcases step_applied hs ha with ⟨c₁, call₁, hc₁, hatt, hid, _, _, hcalls, _⟩ | ⟨hl, _⟩
  · obtain rfl := hC.client_eq hc₁ hc hid
    obtain rfl : call₁ = call := Option.some.inj (hc₁.symm.trans hc)
    rw [hcalls, Function.update_self] at hsame
    have hserved := congrArg Call.attempt (Option.some.inj hsame)
    rw [hatt] at hserved
    simp at hserved
  · exact hV.firstLate hc hfirst _ hl

theorem timesApplied_step_eq {id : Nat} (h : ∀ args, e.applied ≠ some (id, args)) :
    timesApplied (tr ++ [e]) id = timesApplied tr id := by
  cases ha : e.applied with
  | none => exact timesApplied_snoc_none ha id
  | some p =>
      obtain ⟨id', args⟩ := p
      refine timesApplied_snoc_ne ha (fun heq => h args ?_)
      rw [ha, heq]

/-- A first attempt leaves no request out late. -/
theorem verdictOk_firstLate (hC : CallsOk tr s) (hV : VerdictOk tr s) (hs : Step s e s')
    {c : ClientId} {call' : Call} (hc' : s'.calls c = some call') (hfirst : call'.retried = false)
    (op : Op) : (call'.id, op) ∉ s'.late := by
  intro hl'
  rcases step_calls hs hc' with ⟨op', he, hcall, hnone⟩ | ⟨call, hc, hmove⟩
  · -- the call is new, and nothing carries its number yet
    subst hcall
    rcases step_late hs hl' with hl | ⟨c₁, call₁, hc₁, hid, _, _⟩
    · exact hC.fresh_late hl
    · have hlt := hC.idLt (hC.invoked hc₁)
      rw [hid] at hlt
      exact absurd hlt (Nat.lt_irrefl _)
  · have hid := hmove.id_eq
    rw [hid] at hl'
    have hfirst₀ : call.retried = false := by
      cases hmove with
      | same => exact hfirst
      | served _ _ => exact hfirst
      | resent => simp [Call.resend] at hfirst
    rcases step_late hs hl' with hl | ⟨c₁, call₁, hc₁, hid₁, _, hres⟩
    · exact hV.firstLate hc hfirst₀ op hl
    · obtain rfl := hC.client_eq hc₁ hc hid₁
      rw [hc'] at hres
      rw [Option.some.inj hres] at hfirst
      simp [Call.resend] at hfirst

/-- While the first attempt is out, nothing of the call has been applied. -/
theorem verdictOk_firstSent (hC : CallsOk tr s) (hV : VerdictOk tr s) (hs : Step s e s')
    {c : ClientId} {call' : Call} (hc' : s'.calls c = some call') (hfirst : call'.retried = false)
    (hsent : call'.attempt = .sent) : timesApplied (tr ++ [e]) call'.id = 0 := by
  rcases step_calls hs hc' with ⟨op', he, hcall, hnone⟩ | ⟨call, hc, hmove⟩
  · subst hcall
    rw [timesApplied_snoc_none (by rw [he]; rfl)]
    exact hC.fresh_timesApplied
  · cases hmove with
    | same =>
        rw [timesApplied_step_eq (hV.not_applied hC hs hc hfirst hc')]
        exact hV.firstSent hc hfirst hsent
    | served _ _ => simp at hsent
    | resent => simp [Call.resend] at hfirst

/-- A first attempt that was not told `OK` has applied nothing. -/
theorem verdictOk_firstServed (hC : CallsOk tr s) (hV : VerdictOk tr s) (hs : Step s e s')
    {c : ClientId} {call' : Call} {r : Reply} (hc' : s'.calls c = some call')
    (hfirst : call'.retried = false) (hserved : call'.attempt = .served r) (hr : r ≠ .put ⟨.OK⟩) :
    timesApplied (tr ++ [e]) call'.id = 0 := by
  rcases step_calls hs hc' with ⟨op', he, hcall, hnone⟩ | ⟨call, hc, hmove⟩
  · subst hcall; simp at hserved
  · cases hmove with
    | same =>
        rw [timesApplied_step_eq (hV.not_applied hC hs hc hfirst hc')]
        exact hV.firstServed hc hfirst hserved hr
    | served hsent he =>
        have hrep : (s.kv.dispatch call.op).2 = r := by simpa using hserved
        have hnone : e.applied = none := by
          rw [he, hrep]
          simp [Event.applied, appliedPut_eq_none hr]
        have hzero : timesApplied tr call.id = 0 := hV.firstSent hc hfirst hsent
        rw [timesApplied_snoc_none hnone]
        exact hzero
    | resent => simp [Call.resend] at hfirst

/-- An attempt that was told `OK` was applied. -/
theorem verdictOk_servedOk (hV : VerdictOk tr s) (hs : Step s e s') {c : ClientId} {call' : Call}
    (hc' : s'.calls c = some call') (hserved : call'.attempt = .served (.put ⟨.OK⟩)) :
    1 ≤ timesApplied (tr ++ [e]) call'.id := by
  rcases step_calls hs hc' with ⟨op', he, hcall, hnone⟩ | ⟨call, hc, hmove⟩
  · subst hcall; simp at hserved
  · cases hmove with
    | same => exact Nat.le_trans (hV.servedOk hc hserved) (timesApplied_mono tr [e] _)
    | served hsent he =>
        have hrep : (s.kv.dispatch call.op).2 = .put ⟨.OK⟩ := by simpa using hserved
        rcases dispatch_cases s.kv call.op with ⟨args, hop, _, hd⟩ | ⟨_, hne⟩
        · have ha : e.applied = some (call.id, args) := by
            rw [he, hrep, hop]
            rfl
          rw [timesApplied_snoc_self ha]
          omega
        · exact absurd hrep hne
    | resent => simp [Call.resend] at hserved

/-- A call that has returned is in progress nowhere. -/
theorem verdictOk_done (hC : CallsOk tr s) (hV : VerdictOk tr s) (hs : Step s e s')
    {c : ClientId} {id : Nat} {op : Op} {r : Reply} (hret : .ret c id op r ∈ tr ++ [e])
    {c' : ClientId} {call' : Call} (hc' : s'.calls c' = some call') : call'.id ≠ id := by
  rcases List.mem_append.mp hret with hold | hnew
  · rcases step_calls hs hc' with ⟨op', he, hcall, hnone⟩ | ⟨call, hc, hmove⟩
    · have hlt := hC.idLt (hV.retInvoked hold)
      subst hcall
      exact Nat.ne_of_gt hlt
    · rw [hmove.id_eq]
      exact hV.done hold hc
  · obtain rfl := List.mem_singleton.mp hnew
    obtain ⟨call₀, r₀, hc₀, _, hid₀, _, _, hs'⟩ := step_ret hs
    intro hid
    have hne : c' ≠ c := by
      rintro rfl
      rw [hs', setCall_calls_self] at hc'
      simp at hc'
    rw [hs', setCall_calls_ne _ _ hne] at hc'
    exact hne (hC.client_eq hc' hc₀ (hid.trans hid₀.symm))

/-- After a verdict of `ErrVersion` nothing of the call is left to be applied. -/
theorem verdictOk_retVersion (hV : VerdictOk tr s) (hs : Step s e s')
    {c : ClientId} {id : Nat} {op : Op} (hret : .ret c id op (.put ⟨.ErrVersion⟩) ∈ tr ++ [e]) :
    timesApplied (tr ++ [e]) id = 0 ∧ ∀ op', (id, op') ∉ s'.late := by
  rcases List.mem_append.mp hret with hold | hnew
  · obtain ⟨hzero, hlate⟩ := hV.retVersion hold
    refine ⟨?_, fun op' hl' => ?_⟩
    · rw [timesApplied_step_eq, hzero]
      intro args ha
      rcases step_applied hs ha with ⟨c₁, call₁, hc₁, _, hid, _⟩ | ⟨hl, _⟩
      · exact hV.done hold hc₁ hid
      · exact hlate _ hl
    · rcases step_late hs hl' with hl | ⟨c₁, call₁, hc₁, hid, _, _⟩
      · exact hlate op' hl
      · exact hV.done hold hc₁ hid
  · obtain rfl := List.mem_singleton.mp hnew
    obtain ⟨call, r₀, hc, hatt, hid, _, hres, hs'⟩ := step_ret hs
    obtain ⟨hr₀, honly⟩ := clerkResult_put hres.symm (by decide)
    have hfirst := honly rfl
    subst hid
    refine ⟨?_, fun op' hl' => ?_⟩
    · rw [timesApplied_snoc_none rfl]
      exact hV.firstServed hc hfirst hatt (by rw [hr₀]; simp)
    · rw [hs'] at hl'
      exact hV.firstLate hc hfirst op' hl'

theorem verdictOk_step (hC : CallsOk tr s) (hV : VerdictOk tr s) (hs : Step s e s') :
    VerdictOk (tr ++ [e]) s' := by
  refine ⟨fun hc' hf op => verdictOk_firstLate hC hV hs hc' hf op,
    fun hc' hf hsent => verdictOk_firstSent hC hV hs hc' hf hsent,
    fun hc' hf hserved hr => verdictOk_firstServed hC hV hs hc' hf hserved hr,
    fun hc' hserved => verdictOk_servedOk hV hs hc' hserved,
    fun hret _ _ hc' => verdictOk_done hC hV hs hret hc',
    ?_, ?_, fun hret => verdictOk_retVersion hV hs hret⟩
  · intro c id op r hret
    rcases List.mem_append.mp hret with hold | hnew
    · exact List.mem_append_left _ (hV.retInvoked hold)
    · obtain rfl := List.mem_singleton.mp hnew
      obtain ⟨call, r₀, hc, _, rfl, rfl, _, _⟩ := step_ret hs
      exact List.mem_append_left _ (hC.invoked hc)
  · intro c id op hret
    rcases List.mem_append.mp hret with hold | hnew
    · exact Nat.le_trans (hV.retOk hold) (timesApplied_mono tr [e] id)
    · obtain rfl := List.mem_singleton.mp hnew
      obtain ⟨call, r₀, hc, hatt, rfl, _, hres, _⟩ := step_ret hs
      rw [(clerkResult_put hres.symm (by decide)).1] at hatt
      exact Nat.le_trans (hV.servedOk hc hatt) (timesApplied_mono tr _ _)

end StepLemmas

theorem verdictOk {tr : List Event} {s : State} (h : Reaches net tr s) : VerdictOk tr s :=
  Reaches.invariant verdictOk_init (fun _ _ _ _ hr ih hs => verdictOk_step (callsOk hr) ih hs) h

/-! ## A Put that started from the current version -/

/-- Where a Put call stands, `mid` being what has happened since it was invoked: nothing of it has run yet
    and its version is still the current one, or it has been applied and every later attempt finds the
    version gone. -/
inductive PutProgress (mid : List Event) (kv : KVServer) (args : PutArgs) (call : Call) : Prop where
  | waiting : timesApplied mid call.id = 0 → kv.currentVersion args.key = args.version →
      call.attempt = .sent → PutProgress mid kv args call
  | written : 1 ≤ timesApplied mid call.id → kv.kvStore args.key ≠ none →
      (call.attempt = .sent → call.retried = true) →
      (∀ r, call.attempt = .served r →
        r = .put ⟨.OK⟩ ∨ (r = .put ⟨.ErrVersion⟩ ∧ call.retried = true)) →
      PutProgress mid kv args call

/-- Only this call's Puts were applied on its key. -/
def OnlyWriter (mid : List Event) (k : String) (id : Nat) : Prop :=
  ∀ p ∈ applied mid, p.2.key = k → p.1 = id

theorem OnlyWriter.init {mid : List Event} {e : Event} {k : String} {id : Nat}
    (h : OnlyWriter (mid ++ [e]) k id) : OnlyWriter mid k id := by
  intro p hp
  refine h p ?_
  rw [applied_snoc]
  exact List.mem_append_left _ hp

theorem OnlyWriter.last {mid : List Event} {e : Event} {k : String} {id id' : Nat} {args : PutArgs}
    (h : OnlyWriter (mid ++ [e]) k id) (ha : e.applied = some (id', args)) (hk : args.key = k) :
    id' = id := by
  refine h (id', args) ?_ hk
  rw [applied_snoc, ha]
  exact List.mem_append_right _ (by simp)

/-- A present key stays present. -/
theorem step_present {s s' : State} {e : Event} (h : Step s e s') {k : String}
    (hk : s.kv.kvStore k ≠ none) : s'.kv.kvStore k ≠ none := by
  rcases step_store h with ⟨id, args, _, _, hkv⟩ | ⟨_, hkv⟩
  · rw [hkv]
    by_cases heq : k = args.key
    · subst heq; simp
    · rw [set_kvStore_ne heq]; exact hk
  · rw [hkv]; exact hk

/-- A Put on a present key is answered `OK` or `ErrVersion`. -/
theorem dispatch_present {kv : KVServer} {args : PutArgs} (h : kv.kvStore args.key ≠ none) :
    (kv.dispatch (.put args)).2 = .put ⟨.OK⟩ ∨ (kv.dispatch (.put args)).2 = .put ⟨.ErrVersion⟩ := by
  by_cases hv : args.version = kv.currentVersion args.key
  · left; simp [KVServer.dispatch, put_of_current hv]
  · right; simp [KVServer.dispatch, put_of_not_current hv, h]

/-- A Put that carries the current version is answered `OK`. -/
theorem dispatch_current {kv : KVServer} {args : PutArgs}
    (h : kv.currentVersion args.key = args.version) : (kv.dispatch (.put args)).2 = .put ⟨.OK⟩ := by
  simp [KVServer.dispatch, put_of_current h.symm]

section PutProgress

variable {tr mid : List Event} {s s' : State} {e : Event} {c : ClientId} {call call' : Call} {args : PutArgs}

/-- What is applied under the number of a pending Put is that Put. -/
theorem CallsOk.applied_args (hC : CallsOk tr s) (hs : Step s e s') (hc : s.calls c = some call)
    (hop : call.op = .put args) {args' : PutArgs} (ha : e.applied = some (call.id, args')) :
    args' = args := by
  obtain ⟨c₁, hinv₁⟩ : ∃ c₁, .invoke c₁ call.id (.put args') ∈ tr := by
    rcases step_applied hs ha with ⟨c₁, call₁, hc₁, _, hid₁, hop₁, _⟩ | ⟨hl, _⟩
    · refine ⟨c₁, ?_⟩
      rw [← hid₁, ← hop₁]
      exact hC.invoked hc₁
    · exact hC.lateInvoked hl
  have hinv := hC.invoked hc
  rw [hop] at hinv
  obtain ⟨-, hopeq⟩ := hC.unique hinv₁ hinv
  exact Op.put.inj hopeq

/-- An attempt that carries the current version and is not applied is still out. -/
theorem CallMove.still_sent {kv : KVServer} (hmove : CallMove kv c e call call') (hop : call.op = .put args)
    (hcur : kv.currentVersion args.key = args.version) (hatt : call.attempt = .sent)
    (hno : ∀ args', e.applied ≠ some (call.id, args')) : call'.attempt = .sent := by
  cases hmove with
  | same => exact hatt
  | served _ he =>
      -- serving this very attempt would have applied it
      refine absurd ?_ (hno args)
      rw [he, hop, dispatch_current hcur]
      rfl
  | resent => rfl

/-- Once written, always written: later attempts find the key present. -/
theorem putProgress_written (hs : Step s e s') (hop : call.op = .put args)
    (hmove : CallMove s.kv c e call call') (htimes : 1 ≤ timesApplied mid call.id)
    (hpres : s.kv.kvStore args.key ≠ none) (hsent : call.attempt = .sent → call.retried = true)
    (hserved : ∀ r, call.attempt = .served r →
      r = .put ⟨.OK⟩ ∨ (r = .put ⟨.ErrVersion⟩ ∧ call.retried = true)) :
    PutProgress (mid ++ [e]) s'.kv args call' := by
  refine .written ?_ (step_present hs hpres) ?_ ?_
  · rw [hmove.id_eq]
    exact Nat.le_trans htimes (timesApplied_mono mid [e] call.id)
  · intro hatt
    cases hmove with
    | same => exact hsent hatt
    | served _ _ => simp at hatt
    | resent => rfl
  · intro r hatt
    cases hmove with
    | same => exact hserved r hatt
    | served hsent₀ _ =>
        obtain rfl : (s.kv.dispatch call.op).2 = r := by simpa using hatt
        rw [hop]
        rcases dispatch_present hpres with hok | herr
        · exact Or.inl hok
        · exact Or.inr ⟨herr, hsent hsent₀⟩
    | resent => simp [Call.resend] at hatt

/-- The step that applies a waiting Put. -/
theorem putProgress_applied (hC : CallsOk tr s) (hV : VerdictOk tr s) (hs : Step s e s')
    (hc : s.calls c = some call) (hop : call.op = .put args) (hc' : s'.calls c = some call')
    (hmove : CallMove s.kv c e call call') (hcur : s.kv.currentVersion args.key = args.version)
    (hatt : call.attempt = .sent) (ha : e.applied = some (call.id, args)) :
    PutProgress (mid ++ [e]) s'.kv args call' := by
  refine .written ?_ ?_ ?_ ?_
  · rw [hmove.id_eq, timesApplied_snoc_self ha]
    omega
  · rcases step_store hs with ⟨id', args', ha', _, hkv⟩ | ⟨hnone, _⟩
    · obtain ⟨-, rfl⟩ := Prod.mk.inj (Option.some.inj (ha.symm.trans ha'))
      rw [hkv]
      simp
    · rw [ha] at hnone
      cases hnone
  · intro hatt'
    cases hmove with
    | same =>
        -- what is applied while the call waits is an earlier copy of it, so the call has retried
        by_contra hret
        have hfirst : call.retried = false := by simpa using hret
        exact hV.not_applied hC hs hc hfirst hc' args ha
    | served _ _ => simp at hatt'
    | resent => rfl
  · intro r hatt'
    cases hmove with
    | same =>
        rw [hatt] at hatt'
        cases hatt'
    | served _ he =>
        left
        rw [hop, dispatch_current hcur] at hatt'
        simpa using hatt'.symm
    | resent => simp [Call.resend] at hatt'

/-- A step that does not apply the waiting Put leaves the version of its key alone, when nobody else writes. -/
theorem currentVersion_step (hs : Step s e s') (honly : OnlyWriter (mid ++ [e]) args.key call.id)
    (hno : ∀ args', e.applied ≠ some (call.id, args')) :
    s'.kv.currentVersion args.key = s.kv.currentVersion args.key := by
  rcases step_store hs with ⟨id', args', ha, _, hkv⟩ | ⟨_, hkv⟩
  · have hk : args.key ≠ args'.key := by
      intro hk
      obtain rfl := honly.last ha hk.symm
      exact hno args' ha
    rw [hkv, KVServer.currentVersion, KVServer.currentVersion, set_kvStore_ne hk]
  · rw [hkv]

/-- One step of a Put call that began from the current version and is its key's only writer. -/
theorem putProgress_step (hC : CallsOk tr s) (hV : VerdictOk tr s) (hs : Step s e s')
    (hc : s.calls c = some call) (hop : call.op = .put args) (hc' : s'.calls c = some call')
    (hmove : CallMove s.kv c e call call') (honly : OnlyWriter (mid ++ [e]) args.key call.id)
    (h : PutProgress mid s.kv args call) : PutProgress (mid ++ [e]) s'.kv args call' := by
  cases h with
  | written htimes hpres hsent hserved => exact putProgress_written hs hop hmove htimes hpres hsent hserved
  | waiting htimes hcur hatt =>
      by_cases happ : ∃ args', e.applied = some (call.id, args')
      · obtain ⟨args', ha⟩ := happ
        obtain rfl := hC.applied_args hs hc hop ha
        exact putProgress_applied hC hV hs hc hop hc' hmove hcur hatt ha
      · have hno : ∀ args', e.applied ≠ some (call.id, args') := fun args' ha => happ ⟨args', ha⟩
        refine .waiting ?_ ?_ (hmove.still_sent hop hcur hatt hno)
        · rw [hmove.id_eq, timesApplied_step_eq hno]
          exact htimes
        · rw [currentVersion_step hs honly hno]
          exact hcur

end PutProgress

/-- A whole run after the invocation: as long as the call goes on, it is waiting or written. -/
theorem put_run {pre : List Event} {s₁ s₂ : State} (hpre : Reaches net pre s₁) {c : ClientId} {id : Nat}
    {args : PutArgs} (hinv : Step s₁ (.invoke c id (.put args)) s₂)
    (hcur : s₁.kv.currentVersion args.key = args.version) {mid : List Event} {s₃ : State}
    (hmid : Run net s₂ mid s₃) (honly : OnlyWriter mid args.key id) {c' : ClientId} {call : Call}
    (hc : s₃.calls c' = some call) (hid : call.id = id) :
    call.op = .put args ∧ PutProgress mid s₃.kv args call := by
  have hreach : Reaches net (pre ++ [.invoke c id (.put args)]) s₂ := hpre.snoc hinv
  have hmem : Event.invoke c id (.put args) ∈ pre ++ [.invoke c id (.put args)] := by simp
  revert c' call
  -- by induction over what has happened since the invocation
  refine Run.invariant (P := fun mid s => OnlyWriter mid args.key id → ∀ {c' : ClientId} {call : Call},
    s.calls c' = some call → call.id = id → call.op = .put args ∧ PutProgress mid s.kv args call)
    ?_ ?_ hmid honly
  · intro _ c' call hc hid
    have hC := callsOk hpre
    rcases step_calls hinv hc with ⟨op, he, hcall, _⟩ | ⟨call₀, hc₀, hmove⟩
    · obtain ⟨-, -, hop⟩ := Event.invoke.inj he
      subst hcall
      refine ⟨hop.symm, .waiting rfl ?_ rfl⟩
      rcases step_store hinv with ⟨_, _, ha, _⟩ | ⟨_, hkv⟩
      · simp [Event.applied] at ha
      · rw [hkv]; exact hcur
    · -- an older call has an older number
      rcases step_nextId hinv with ⟨_, _, he, _⟩ | ⟨hne, _⟩
      · have hlt := hC.idLt (hC.invoked hc₀)
        rw [← hmove.id_eq, hid, (Event.invoke.inj he).2.1] at hlt
        exact absurd hlt (Nat.lt_irrefl _)
      · exact absurd rfl (hne _ _ _)
  · intro mid s e s' hrun ih hs honly' c' call' hc' hid'
    have hr := hreach.append hrun
    have hC := callsOk hr
    rcases step_calls hs hc' with ⟨op, _, hcall, _⟩ | ⟨call₀, hc₀, hmove⟩
    · have hlt := hC.idLt (List.mem_append_left mid hmem)
      subst hcall
      exact absurd hid' (Nat.ne_of_gt hlt)
    · have hid₀ : call₀.id = id := hmove.id_eq.symm.trans hid'
      obtain ⟨hop₀, hprog⟩ := ih honly'.init hc₀ hid₀
      refine ⟨hmove.op_eq.trans hop₀, ?_⟩
      subst hid₀
      exact putProgress_step hC (verdictOk hr) hs hc₀ hop₀ hc' hmove honly' hprog

/-! ## The contract of `Clerk.Put` -/

/-- **The verdicts of `Clerk.Put` are exact.** In every run in which the key sees fewer than `2 ^ 64` Puts, for every
call of `Clerk.Put`: at most one of its attempts changes the store; when it returns `OK` exactly one has, by then;
when it returns `ErrVersion` none ever does; and when it started from the key's current version and nobody else's Put
on the key was applied before it returned, it returns `OK` or `ErrMaybe` and exactly one attempt was applied. -/
theorem put_verdicts_exact {tr : List Event} {s : State} (hrun : Reaches net tr s) {c : ClientId}
    {id : Nat} {args : PutArgs} (hcall : .invoke c id (.put args) ∈ tr)
    (hfew : (appliedOn tr args.key).length < 2 ^ 64) :
    timesApplied tr id ≤ 1
    ∧ (∀ pre post, tr = pre ++ .ret c id (.put args) (.put ⟨.OK⟩) :: post → timesApplied pre id = 1)
    ∧ (.ret c id (.put args) (.put ⟨.ErrVersion⟩) ∈ tr → timesApplied tr id = 0)
    ∧ (∀ pre s₁ mid r post,
        tr = pre ++ .invoke c id (.put args) :: (mid ++ .ret c id (.put args) r :: post) →
        Reaches net pre s₁ → s₁.kv.currentVersion args.key = args.version →
        OnlyWriter mid args.key id →
        (r = .put ⟨.OK⟩ ∨ r = .put ⟨.ErrMaybe⟩) ∧ timesApplied mid id = 1) := by
  have honce : timesApplied tr id ≤ 1 :=
    applied_at_most_once (callsOk hrun) (storeOk hrun) hcall (Nat.le_of_lt hfew)
  refine ⟨honce, ?_, fun hret => ((verdictOk hrun).retVersion hret).1, ?_⟩
  · intro pre post htr
    subst htr
    obtain ⟨s₁, s₂, hpre, hstep, _⟩ := Run.split_cons hrun
    -- up to its return the call was applied, and in the whole run not more than once
    have hok : 1 ≤ timesApplied (pre ++ [.ret c id (.put args) (.put ⟨.OK⟩)]) id :=
      (verdictOk (Reaches.snoc hpre hstep)).retOk
        (List.mem_append_right _ (List.mem_singleton_self _))
    rw [timesApplied_snoc_none rfl] at hok
    have hle := timesApplied_mono pre (.ret c id (.put args) (.put ⟨.OK⟩) :: post) id
    omega
  · intro pre s₁ mid r post htr hpre hcur honly
    subst htr
    obtain ⟨s₁', s₂, hpre', hinv, hrest⟩ := Run.split_cons hrun
    obtain rfl : s₁ = s₁' := Run.det net_computedBy hpre hpre'
    obtain ⟨s₃, s₄, hmid, hret, _⟩ := Run.split_cons hrest
    obtain ⟨call, r₀, hc, hatt, hid, _, hr, _⟩ := step_ret hret
    obtain ⟨_, hprog⟩ := put_run hpre hinv hcur hmid honly hc hid
    -- a call that returns has been answered, so it has written; what it was told depends on whether it has retried
    cases hprog with
    | waiting _ _ hsent => rw [hatt] at hsent; simp at hsent
    | written htimes _ _ hserved =>
        refine ⟨?_, ?_⟩
        · rcases hserved r₀ hatt with rfl | ⟨rfl, hretried⟩
          · left; simpa [clerkResult, putResult] using hr
          · right; simpa [clerkResult, putResult, hretried] using hr
        · have hle : timesApplied mid id ≤ timesApplied
              (pre ++ .invoke c id (.put args) :: (mid ++ .ret c id (.put args) r :: post)) id := by
            unfold timesApplied
            refine List.Sublist.countP_le ?_
            unfold applied
            refine List.Sublist.filterMap _ ?_
            refine List.Sublist.trans ?_ (List.sublist_append_right pre _)
            exact List.Sublist.cons _ (List.sublist_append_left mid _)
          rw [hid] at htimes
          omega

/-- A Put whose first request runs only after its `Call` gave up: the late copy is the one applied, and the
    second attempt brings back `ErrVersion`. -/
def lateTrace : List Event :=
  [.invoke 0 0 (.put ⟨"k", "v", 0⟩), .abandon 0, .serveLate 0 (.put ⟨"k", "v", 0⟩) (.put ⟨.OK⟩),
    .serve 0 0 (.put ⟨"k", "v", 0⟩) (.put ⟨.ErrVersion⟩),
    .ret 0 0 (.put ⟨"k", "v", 0⟩) (.put ⟨.ErrMaybe⟩)]

theorem lateTrace_reaches : ∃ s, Reaches net lateTrace s :=
  exists_reaches_of_exec net_computedBy (by decide)

theorem put_verdicts_lateTrace : timesApplied lateTrace 0 ≤ 1
    ∧ (∀ pre post, lateTrace = pre ++ .ret 0 0 (.put ⟨"k", "v", 0⟩) (.put ⟨.OK⟩) :: post →
        timesApplied pre 0 = 1)
    ∧ (.ret 0 0 (.put ⟨"k", "v", 0⟩) (.put ⟨.ErrVersion⟩) ∈ lateTrace → timesApplied lateTrace 0 = 0)
    ∧ (∀ pre s₁ mid r post,
        lateTrace = pre ++ .invoke 0 0 (.put ⟨"k", "v", 0⟩) ::
          (mid ++ .ret 0 0 (.put ⟨"k", "v", 0⟩) r :: post) →
        Reaches net pre s₁ → s₁.kv.currentVersion "k" = 0 → OnlyWriter mid "k" 0 →
        (r = .put ⟨.OK⟩ ∨ r = .put ⟨.ErrMaybe⟩) ∧ timesApplied mid 0 = 1) := by
  obtain ⟨s, hs⟩ := lateTrace_reaches
  have hcall : Event.invoke 0 0 (.put ⟨"k", "v", 0⟩) ∈ lateTrace := List.mem_cons_self
  exact put_verdicts_exact hs hcall (by decide)

end KvSrv
end DistributedLabs
