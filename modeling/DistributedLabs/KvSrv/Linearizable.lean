import DistributedLabs.Lib.Linearizability
import DistributedLabs.KvSrv.Verdicts

/-!
# `KvSrv.Linearizable` — the service is linearizable while no version wraps

The history of a run is its `Clerk` calls and returns. The specification is the server itself, one request
at a time; a Put that returned `ErrMaybe` may have been an applied Put or one rejected with `ErrVersion`.

One `Clerk.Put` can run several times on the server. Which of the runs is the call's effect is settled as
follows, and `LinOk` is the invariant that says it always works out:

* a run that applied the Put is the effect, whatever happens to its reply;
* any other run is the effect only until its reply is lost, and is then taken back.

A call applied once cannot be applied again while its key has seen at most `2 ^ 64` Puts
(`applied_at_most_once`), so the two rules never give a call two effects. The bound is sharp:
`KvSrv.Wraparound` has a run with one Put more that is not linearizable.

`LinOk` carries the linearization of the run so far, in the order in which the effects happened, which is the order
of the server. What is left to do for a step is the one call it is about (`LinOk.update`); there is one lemma for each
kind of step. What a linearization is, and that an effect between call and return respects the order of the history,
is general and comes from `Lib.Linearizability`.
-/

namespace DistributedLabs
namespace KvSrv

open Lib

/-- The sequential specification: the server's own handlers. -/
def kvSpec : SeqSpec KVServer Op Reply := ⟨makeKVServer, KVServer.dispatch⟩

/-- What a caller was told, and what the specification may have said. -/
def Explains (told said : Reply) : Prop :=
  told = said ∨ (told = .put ⟨.ErrMaybe⟩ ∧ (said = .put ⟨.OK⟩ ∨ said = .put ⟨.ErrVersion⟩))

/-- What the history has of an event. -/
def Event.hist : Event → Option (HEvent Op Reply)
  | .invoke _ id op => some (.inv id op)
  | .ret _ id _ r => some (.res id r)
  | _ => none

/-- The calls and returns of a run. -/
def history (tr : List Event) : List (HEvent Op Reply) := tr.filterMap Event.hist

theorem history_snoc (tr : List Event) (e : Event) :
    history (tr ++ [e]) = history tr ++ e.hist.toList :=
  filterMap_snoc Event.hist tr e

theorem history_snoc_none {tr : List Event} {e : Event} (h : e.hist = none) :
    history (tr ++ [e]) = history tr :=
  filterMap_snoc_none h

/-- The calls of the history are those of the run. -/
theorem inv_mem_history {tr : List Event} {id : Nat} {op : Op} :
    .inv id op ∈ history tr ↔ ∃ c, .invoke c id op ∈ tr := by
  unfold history
  rw [List.mem_filterMap]
  constructor
  · rintro ⟨e, he, hh⟩
    cases e with
    | invoke c id' op' =>
        obtain ⟨rfl, rfl⟩ : id' = id ∧ op' = op := by simpa [Event.hist] using hh
        exact ⟨c, he⟩
    | _ => simp [Event.hist] at hh
  · rintro ⟨c, hc⟩
    exact ⟨_, hc, rfl⟩

theorem res_mem_history {tr : List Event} {id : Nat} {r : Reply} (h : .res id r ∈ history tr) :
    ∃ c op, .ret c id op r ∈ tr := by
  unfold history at h
  obtain ⟨e, he, hh⟩ := List.mem_filterMap.mp h
  cases e with
  | ret c id' op r' =>
      obtain ⟨rfl, rfl⟩ : id' = id ∧ r' = r := by simpa [Event.hist] using hh
      exact ⟨c, op, he⟩
  | _ => simp [Event.hist] at hh

/-! ## The invariant -/

/-- The entry that stands for a served attempt: it says what the attempt was told, or it is the earlier
    application of a Put whose retry was told `ErrVersion`. -/
def StandsFor (o : LinOp Op Reply) (call : Call) (r : Reply) : Prop :=
  o.ret = r ∨ (o.ret = .put ⟨.OK⟩ ∧ r = .put ⟨.ErrVersion⟩ ∧ call.retried = true)

/-- The linearization kept beside a run. -/
structure LinOk (tr : List Event) (s : State) (L : List (LinOp Op Reply)) : Prop where
  lin : Linearization kvSpec Explains (history tr) L
  kv : kvSpec.after makeKVServer L = s.kv
  sent : ∀ {c call}, s.calls c = some call → call.attempt = .sent →
    ∀ o ∈ L, o.id = call.id → o.ret = .put ⟨.OK⟩
  served : ∀ {c call r}, s.calls c = some call → call.attempt = .served r →
    ∃ o ∈ L, o.id = call.id ∧ StandsFor o call r
  applied : ∀ {o}, o ∈ L → o.ret = .put ⟨.OK⟩ → 1 ≤ timesApplied tr o.id

theorem linOk_init : LinOk [] net.init [] :=
  { lin := Linearization.empty
    kv := rfl
    sent := fun h => by simp [net] at h
    served := fun h => by simp [net] at h
    applied := fun h => by simp at h }

section StepLemmas

variable {tr : List Event} {s s' : State} {L : List (LinOp Op Reply)}

/-- No return of a call in progress is in the history. -/
theorem not_returned (hV : VerdictOk tr s) {c : ClientId} {call : Call} (hc : s.calls c = some call)
    (r : Reply) : HEvent.res call.id r ∉ history tr := by
  intro hr
  obtain ⟨c', op, hret⟩ := res_mem_history hr
  exact hV.done hret hc rfl

/-- Every step changes the call of one client only. What is left to show for it is about that call, and
    that the entries of the other calls in progress stay. -/
theorem LinOk.update {e : Event} {L' : List (LinOp Op Reply)} {c : ClientId} {x : Option Call}
    (hL : LinOk tr s L) (hcalls : s'.calls = Function.update s.calls c x)
    (hlin : Linearization kvSpec Explains (history (tr ++ [e])) L')
    (hkv : kvSpec.after makeKVServer L' = s'.kv)
    (hothers : ∀ {c' call}, c' ≠ c → s.calls c' = some call → ∀ {o}, o.id = call.id → (o ∈ L' ↔ o ∈ L))
    (hsent : ∀ {call}, x = some call → call.attempt = .sent →
      ∀ o ∈ L', o.id = call.id → o.ret = .put ⟨.OK⟩)
    (hserved : ∀ {call r}, x = some call → call.attempt = .served r →
      ∃ o ∈ L', o.id = call.id ∧ StandsFor o call r)
    (happ : ∀ {o}, o ∈ L' → o.ret = .put ⟨.OK⟩ → 1 ≤ timesApplied (tr ++ [e]) o.id) :
    LinOk (tr ++ [e]) s' L' := by
  refine ⟨hlin, hkv, ?_, ?_, happ⟩
  · intro c' call hc' hatt o ho hid
    rw [hcalls] at hc'
    rcases update_cases hc' with ⟨_, hx⟩ | ⟨hne, hold⟩
    · exact hsent hx hatt o ho hid
    · exact hL.sent hold hatt o ((hothers hne hold hid).mp ho) hid
  · intro c' call r hc' hatt
    rw [hcalls] at hc'
    rcases update_cases hc' with ⟨_, hx⟩ | ⟨hne, hold⟩
    · exact hserved hx hatt
    · obtain ⟨o, ho, hid, hst⟩ := hL.served hold hatt
      exact ⟨o, (hothers hne hold hid).mpr ho, hid, hst⟩

theorem LinOk.applied_snoc (hL : LinOk tr s L) (e : Event) {o : LinOp Op Reply} (ho : o ∈ L)
    (hret : o.ret = .put ⟨.OK⟩) : 1 ≤ timesApplied (tr ++ [e]) o.id :=
  Nat.le_trans (hL.applied ho hret) (timesApplied_mono tr [e] o.id)

/-- A call begins: it has no effect yet. -/
theorem LinOk.invoke {c : ClientId} {op : Op} (hL : LinOk tr s L) (hC : CallsOk tr s) :
    LinOk (tr ++ [.invoke c s.nextId op])
      { s.setCall c (some ⟨s.nextId, op, false, .sent⟩) with nextId := s.nextId + 1 } L := by
  have hfresh : ∀ op', HEvent.inv s.nextId op' ∉ history tr := by
    intro op' hin
    obtain ⟨c', hinv⟩ := inv_mem_history.mp hin
    exact absurd (hC.idLt hinv) (Nat.lt_irrefl _)
  refine hL.update rfl ?_ hL.kv (fun _ _ _ _ => Iff.rfl) ?_ ?_ (hL.applied_snoc _)
  · rw [history_snoc]
    exact hL.lin.invoke hfresh
  · rintro call hcall - o ho hid
    obtain rfl := Option.some.inj hcall
    -- an entry with the new number would have been invoked before
    have hinv := hL.lin.invoked ho
    rw [hid] at hinv
    exact absurd hinv (hfresh o.op)
  · intro call r hcall hatt
    obtain rfl := Option.some.inj hcall
    simp at hatt

/-- The request is lost, or only put off: the call stands as it did. -/
theorem LinOk.resend {e : Event} {c : ClientId} {call : Call} (hL : LinOk tr s L)
    (hc : s.calls c = some call) (hatt : call.attempt = .sent) (hh : e.hist = none)
    (hkv : s'.kv = s.kv) (hcalls : s'.calls = Function.update s.calls c (some call.resend)) :
    LinOk (tr ++ [e]) s' L := by
  refine hL.update hcalls ?_ (hL.kv.trans hkv.symm) (fun _ _ _ _ => Iff.rfl) ?_ ?_ (hL.applied_snoc _)
  · rw [history_snoc_none hh]
    exact hL.lin
  · rintro call' hcall - o ho hid
    obtain rfl := Option.some.inj hcall
    exact hL.sent hc hatt o ho hid
  · intro call' r hcall hatt'
    obtain rfl := Option.some.inj hcall
    simp [Call.resend] at hatt'

/-- A server run that is not yet in the order joins it at the end. -/
theorem LinOk.serve_new {c : ClientId} {call : Call} (hL : LinOk tr s L) (hC : CallsOk tr s)
    (hc : s.calls c = some call) (hnew : ∀ o ∈ L, o.id ≠ call.id) :
    LinOk (tr ++ [.serve c call.id call.op (s.kv.dispatch call.op).2])
      { s.setCall c (some { call with attempt := .served (s.kv.dispatch call.op).2 }) with
        kv := (s.kv.dispatch call.op).1 }
      (L ++ [⟨call.id, call.op, (s.kv.dispatch call.op).2⟩]) := by
  have hafter : kvSpec.after kvSpec.init L = s.kv := hL.kv
  -- the call takes effect now, after all that have taken effect before
  have hcommit := hL.lin.commit (inv_mem_history.mpr ⟨c, hC.invoked hc⟩) hnew
  rw [hafter] at hcommit
  refine hL.update rfl ?_ ?_ ?_ ?_ ?_ ?_
  · rw [history_snoc_none rfl]
    exact hcommit
  · rw [after_append, hL.kv]
    rfl
  -- the other clients' calls have other numbers
  · intro c' call' hne hc' o hid
    rw [List.mem_append, List.mem_singleton, or_iff_left]
    rintro rfl
    exact hne (hC.client_eq hc' hc hid.symm)
  · intro call' hcall hatt
    obtain rfl := Option.some.inj hcall
    simp at hatt
  · intro call' r hcall hatt
    obtain rfl := Option.some.inj hcall
    obtain rfl := Attempt.served.inj hatt
    exact ⟨_, List.mem_append_right _ (List.mem_singleton_self _), rfl, Or.inl rfl⟩
  · intro o ho hret
    rcases List.mem_append.mp ho with ho | ho
    · exact hL.applied_snoc _ ho hret
    · obtain rfl := List.mem_singleton.mp ho
      rcases dispatch_cases s.kv call.op with ⟨args, hop, _, hd⟩ | ⟨_, hr⟩
      · have happ : (Event.serve c call.id call.op (s.kv.dispatch call.op).2).applied
            = some (call.id, args) := by
          rw [hd, hop]
          rfl
        rw [timesApplied_snoc_self happ]
        omega
      · exact absurd hret hr

/-- A Put applied before and run again, on a key with at most `2 ^ 64` Puts, is answered `ErrVersion`. -/
theorem dispatch_applied_before (hC : CallsOk tr s) (hS : StoreOk tr s) {c : ClientId} {call : Call}
    (hc : s.calls c = some call) (hatt : call.attempt = .sent)
    (hfew : ∀ k, (appliedOn (tr ++ [.serve c call.id call.op (s.kv.dispatch call.op).2]) k).length ≤ 2 ^ 64)
    (honce : 1 ≤ timesApplied tr call.id) :
    (s.kv.dispatch call.op).1 = s.kv ∧ (s.kv.dispatch call.op).2 = .put ⟨.ErrVersion⟩ := by
  have hs : Step s (.serve c call.id call.op (s.kv.dispatch call.op).2) _ := Step.serve hc hatt
  -- the earlier application names the request, and shows that its key is there
  obtain ⟨⟨id, args⟩, hmem, hp⟩ := List.countP_pos_iff.mp honce
  obtain rfl : id = call.id := by simpa using hp
  obtain ⟨c', hinv⟩ := hC.appliedInvoked hmem
  have hop : call.op = .put args := ((hC.unique hinv (hC.invoked hc)).2).symm
  have hpresent : s.kv.kvStore args.key ≠ none := by
    rw [hS.present_iff]
    exact List.length_pos_of_mem (List.mem_filter.mpr ⟨hmem, by simp⟩)
  rcases dispatch_cases s.kv call.op with ⟨args', hop', _, hd⟩ | ⟨hkv, hr⟩
  · -- a second application would be one too many
    have happ : (Event.serve c call.id call.op (s.kv.dispatch call.op).2).applied
        = some (call.id, args') := by
      rw [hd, hop']
      rfl
    have hinv' : Event.invoke c' call.id (.put args)
        ∈ tr ++ [.serve c call.id call.op (s.kv.dispatch call.op).2] := List.mem_append_left _ hinv
    have hle := applied_at_most_once (callsOk_step hC hs) (storeOk_step hS hs) hinv' (hfew args.key)
    rw [timesApplied_snoc_self happ] at hle
    omega
  · refine ⟨hkv, ?_⟩
    rw [hop] at hr ⊢
    exact (dispatch_present hpresent).resolve_left hr

/-- A call that already has its effect is run again: the key is there and the version has moved on, so
    the server says `ErrVersion` and nothing changes. -/
theorem LinOk.serve_again {c : ClientId} {call : Call} (hL : LinOk tr s L) (hC : CallsOk tr s)
    (hS : StoreOk tr s) (hV : VerdictOk tr s) (hc : s.calls c = some call) (hatt : call.attempt = .sent)
    (hfew : ∀ k, (appliedOn (tr ++ [.serve c call.id call.op (s.kv.dispatch call.op).2]) k).length ≤ 2 ^ 64)
    {o : LinOp Op Reply} (ho : o ∈ L) (hid : o.id = call.id) :
    LinOk (tr ++ [.serve c call.id call.op (s.kv.dispatch call.op).2])
      { s.setCall c (some { call with attempt := .served (s.kv.dispatch call.op).2 }) with
        kv := (s.kv.dispatch call.op).1 } L := by
  have hret : o.ret = .put ⟨.OK⟩ := hL.sent hc hatt o ho hid
  have honce : 1 ≤ timesApplied tr call.id := hid ▸ hL.applied ho hret
  -- an earlier copy of the request has been applied, so the Clerk has sent it twice
  have hretried : call.retried = true := by
    cases hr : call.retried with
    | true => rfl
    | false =>
        have hzero := hV.firstSent hc hr hatt
        omega
  obtain ⟨hkv, hr⟩ := dispatch_applied_before hC hS hc hatt hfew honce
  refine hL.update rfl ?_ (hL.kv.trans hkv.symm) (fun _ _ _ _ => Iff.rfl) ?_ ?_ (hL.applied_snoc _)
  · rw [history_snoc_none rfl]
    exact hL.lin
  · intro call' hcall hatt'
    obtain rfl := Option.some.inj hcall
    simp at hatt'
  · intro call' r hcall hatt'
    obtain rfl := Option.some.inj hcall
    obtain rfl := Attempt.served.inj hatt'
    exact ⟨o, ho, hid, Or.inr ⟨hret, hr, hretried⟩⟩

/-- An entry answered anything but `OK` left the store alone. -/
theorem legal_idle {l₁ l₂ : List (LinOp Op Reply)} {o : LinOp Op Reply}
    (hleg : kvSpec.Legal kvSpec.init (l₁ ++ o :: l₂)) (hne : o.ret ≠ .put ⟨.OK⟩) :
    (kvSpec.apply (kvSpec.after kvSpec.init l₁) o.op).1 = kvSpec.after kvSpec.init l₁ := by
  rw [legal_append, SeqSpec.Legal] at hleg
  have hret : ((kvSpec.after kvSpec.init l₁).dispatch o.op).2 = o.ret := hleg.2.1
  rcases dispatch_cases (kvSpec.after kvSpec.init l₁) o.op with ⟨args, _, _, hd⟩ | ⟨hkv, _⟩
  · rw [hd] at hret
    exact absurd hret.symm hne
  · exact hkv

/-- The reply of an attempt that applied its Put is lost: the effect stays. -/
theorem LinOk.lose_applied {c : ClientId} {call : Call} (hL : LinOk tr s L)
    {o : LinOp Op Reply} (ho : o ∈ L) (hid : o.id = call.id) (hret : o.ret = .put ⟨.OK⟩) :
    LinOk (tr ++ [.lose c]) (s.setCall c (some call.resend)) L := by
  refine hL.update rfl ?_ hL.kv (fun _ _ _ _ => Iff.rfl) ?_ ?_ (hL.applied_snoc _)
  · rw [history_snoc_none rfl]
    exact hL.lin
  · rintro call' hcall - o' ho' hid'
    obtain rfl := Option.some.inj hcall
    rw [eq_of_id hL.lin.nodup ho' ho (hid'.trans hid.symm)]
    exact hret
  · intro call' r hcall hatt'
    obtain rfl := Option.some.inj hcall
    simp [Call.resend] at hatt'

/-- Any other reply is lost: the effect, which changed nothing, is taken back. -/
theorem LinOk.lose_idle {c : ClientId} {call : Call} {l₁ l₂ : List (LinOp Op Reply)}
    {o : LinOp Op Reply} (hL : LinOk tr s (l₁ ++ o :: l₂)) (hC : CallsOk tr s) (hV : VerdictOk tr s)
    (hc : s.calls c = some call) (hid : o.id = call.id) (hne : o.ret ≠ .put ⟨.OK⟩) :
    LinOk (tr ++ [.lose c]) (s.setCall c (some call.resend)) (l₁ ++ l₂) := by
  have hidle := legal_idle hL.lin.legal hne
  have hpend : ∀ r, HEvent.res o.id r ∉ history tr := hid ▸ not_returned hV hc
  have hnd := hL.lin.nodup
  rw [List.map_append, List.map_cons, List.nodup_middle, List.nodup_cons, ← List.map_append] at hnd
  have hsub : ∀ {x}, x ∈ l₁ ++ l₂ → x ∈ l₁ ++ o :: l₂ := by
    intro x hx
    rw [List.mem_append] at hx ⊢
    exact hx.imp_right (List.mem_cons_of_mem o)
  refine hL.update rfl ?_ ?_ ?_ ?_ ?_ (fun ho => hL.applied_snoc _ (hsub ho))
  · rw [history_snoc_none rfl]
    exact hL.lin.retract hidle hpend
  · have hkv := hL.kv
    rw [after_append, after_cons] at hkv
    have hidle' : (kvSpec.apply (kvSpec.after makeKVServer l₁) o.op).1 = kvSpec.after makeKVServer l₁ :=
      hidle
    rw [hidle', ← after_append] at hkv
    exact hkv
  · intro c' call' hother hc' x hx
    refine ⟨hsub, fun hmem => ?_⟩
    have hxo : x ≠ o := by
      rintro rfl
      exact hother (hC.client_eq hc' hc (hx.symm.trans hid))
    rw [List.mem_append] at hmem ⊢
    exact hmem.imp_right (fun h => (List.mem_cons.mp h).resolve_left hxo)
  · rintro call' hcall - x hx hxid
    obtain rfl := Option.some.inj hcall
    -- the only entry of this call was the one taken back
    have hxo : x.id = o.id := hxid.trans hid.symm
    exact absurd (hxo ▸ List.mem_map_of_mem hx) hnd.1
  · intro call' r hcall hatt'
    obtain rfl := Option.some.inj hcall
    simp [Call.resend] at hatt'

/-- What a Clerk makes of a reply is explained by the entry that stands for it. -/
theorem StandsFor.explains {o : LinOp Op Reply} {call : Call} {r : Reply} (h : StandsFor o call r) :
    Explains (clerkResult call.retried r) o.ret := by
  rcases h with heq | ⟨hok, rfl, hretried⟩
  · rw [heq]
    cases r with
    | get r => exact Or.inl rfl
    | put r =>
        obtain ⟨err⟩ := r
        by_cases hcond : err = .ErrVersion ∧ call.retried = true
        · obtain ⟨rfl, hretried⟩ := hcond
          refine Or.inr ⟨?_, Or.inr rfl⟩
          simp [clerkResult, putResult, hretried]
        · refine Or.inl ?_
          simp only [clerkResult, putResult, if_neg hcond]
  · refine Or.inr ⟨?_, Or.inl hok⟩
    simp [clerkResult, putResult, hretried]

/-- A call returns. -/
theorem LinOk.ret {c : ClientId} {call : Call} {r : Reply} (hL : LinOk tr s L)
    (hc : s.calls c = some call) (hatt : call.attempt = .served r) :
    LinOk (tr ++ [.ret c call.id call.op (clerkResult call.retried r)]) (s.setCall c none) L := by
  obtain ⟨o, ho, hid, hst⟩ := hL.served hc hatt
  refine hL.update rfl ?_ hL.kv (fun _ _ _ _ => Iff.rfl) (fun h => by cases h) (fun h => by cases h)
    (hL.applied_snoc _)
  rw [history_snoc]
  exact hL.lin.respond ⟨o, ho, hid, hst.explains⟩

end StepLemmas

/-! ## Every run -/

/-- No request is executed after its `Call` has returned. -/
def LateFree (tr : List Event) : Prop := ∀ id op r, Event.serveLate id op r ∉ tr

/-- **One step.** The linearization is extended, kept, or loses an effect that nobody was told of. -/
theorem linOk_step {tr : List Event} {s s' : State} {e : Event} {L : List (LinOp Op Reply)}
    (hrun : Reaches net tr s) (hL : LinOk tr s L) (hs : Step s e s') (hlate : LateFree (tr ++ [e]))
    (hfew : ∀ k, (appliedOn (tr ++ [e]) k).length ≤ 2 ^ 64) : ∃ L', LinOk (tr ++ [e]) s' L' := by
  have hC := callsOk hrun
  have hV := verdictOk hrun
  cases hs with
  | invoke hnone => exact ⟨L, hL.invoke hC⟩
  | @serve c call hc hatt =>
      by_cases hex : ∃ o ∈ L, o.id = call.id
      · obtain ⟨o, ho, hid⟩ := hex
        exact ⟨L, hL.serve_again hC (storeOk hrun) hV hc hatt hfew ho hid⟩
      · have hnew : ∀ o ∈ L, o.id ≠ call.id := fun o ho hid => hex ⟨o, ho, hid⟩
        exact ⟨_, hL.serve_new hC hc hnew⟩
  | drop hc hatt => exact ⟨L, hL.resend hc hatt rfl rfl rfl⟩
  | @lose c call r hc hatt =>
      obtain ⟨o, ho, hid, _⟩ := hL.served hc hatt
      by_cases hret : o.ret = .put ⟨.OK⟩
      · exact ⟨L, hL.lose_applied ho hid hret⟩
      · obtain ⟨l₁, l₂, rfl⟩ := List.append_of_mem ho
        exact ⟨_, hL.lose_idle hC hV hc hid hret⟩
  | abandon hc hatt => exact ⟨L, hL.resend hc hatt rfl rfl rfl⟩
  | @serveLate id op hmem => exact absurd (List.mem_append_right _ (List.mem_singleton_self _)) (hlate _ _ _)
  | ret hc hatt => exact ⟨L, hL.ret hc hatt⟩

/-- **Every run** within the bound has a linearization beside it. -/
theorem exists_linOk {tr : List Event} {s : State} (hrun : Reaches net tr s) (hlate : LateFree tr)
    (hfew : ∀ k, (appliedOn tr k).length ≤ 2 ^ 64) : ∃ L, LinOk tr s L := by
  refine Reaches.invariant (P := fun tr s => LateFree tr → (∀ k, (appliedOn tr k).length ≤ 2 ^ 64) →
    ∃ L, LinOk tr s L) (fun _ _ => ⟨[], linOk_init⟩) ?_ hrun hlate hfew
  intro tr s e s' hrun ih hs hlate hfew
  -- both conditions hold of the shorter run as well
  have hlate' : LateFree tr := fun id op r h => hlate id op r (List.mem_append_left _ h)
  have hfew' : ∀ k, (appliedOn tr k).length ≤ 2 ^ 64 :=
    fun k => Nat.le_trans (appliedOn_length_le tr [e] k) (hfew k)
  obtain ⟨L, hL⟩ := ih hlate' hfew'
  exact linOk_step hrun hL hs hlate hfew

/-- **The service is linearizable.** The history of Clerk calls of every run without late executions, in which no key
sees more than `2 ^ 64` applied Puts, is linearizable. -/
theorem history_linearizable {tr : List Event} {s : State} (hrun : Reaches net tr s)
    (hlate : LateFree tr) (hfew : ∀ k, (appliedOn tr k).length ≤ 2 ^ 64) :
    Linearizable kvSpec Explains (history tr) := by
  obtain ⟨L, hL⟩ := exists_linOk hrun hlate hfew
  exact ⟨L, hL.lin⟩

/-- A run in which a Put is applied, its reply is lost, another client overtakes it, and the retry comes
    back with `ErrMaybe`. -/
def maybeTrace : List Event :=
  [.invoke 0 0 (.put ⟨"k", "x", 0⟩), .serve 0 0 (.put ⟨"k", "x", 0⟩) (.put ⟨.OK⟩), .lose 0,
   .invoke 1 1 (.put ⟨"k", "y", 1⟩), .serve 1 1 (.put ⟨"k", "y", 1⟩) (.put ⟨.OK⟩),
   .ret 1 1 (.put ⟨"k", "y", 1⟩) (.put ⟨.OK⟩),
   .serve 0 0 (.put ⟨"k", "x", 0⟩) (.put ⟨.ErrVersion⟩),
   .ret 0 0 (.put ⟨"k", "x", 0⟩) (.put ⟨.ErrMaybe⟩)]

theorem history_linearizable_maybeTrace :
    (∃ s, Reaches net maybeTrace s) ∧ LateFree maybeTrace
      ∧ (∀ k, (appliedOn maybeTrace k).length ≤ 2 ^ 64)
      ∧ Linearizable kvSpec Explains (history maybeTrace) := by
  have hrun : ∃ s, Reaches net maybeTrace s := exists_reaches_of_exec net_computedBy (by decide)
  have hlate : LateFree maybeTrace := by
    intro id op r h
    simp [maybeTrace] at h
  have hfew : ∀ k, (appliedOn maybeTrace k).length ≤ 2 ^ 64 := by
    intro k
    have hlen : (appliedOn maybeTrace k).length ≤ (applied maybeTrace).length := List.length_filter_le ..
    have htwo : (applied maybeTrace).length = 2 := by decide
    omega
  obtain ⟨s, hs⟩ := hrun
  exact ⟨⟨s, hs⟩, hlate, hfew, history_linearizable hs hlate hfew⟩

end KvSrv
end DistributedLabs
