import Mathlib.Data.List.Nodup
import Mathlib.Data.List.Perm.Subperm
import DistributedLabs.KvSrv.Network

/-!
# `KvSrv.Accounting` — calls, requests and versions along a run

Two invariants of every run of the service, on which all later results rest:

* `CallsOk` — a call keeps its number and its request: whatever runs on its behalf, now or late, carries
  the request it was invoked with;
* `StoreOk` — the store is determined by the Puts applied so far: a key holds the value of the last one,
  its version is their number, and the `j`-th one carried version `j` (all versions modulo `2 ^ 64`).

Together they give `applied_at_most_once`: while a key has seen at most `2 ^ 64` Puts, no call has been
applied twice.

What a step can do to the calls is said once, as a `CallMove` of the one call and nothing for the others
(`step_calls`, `step_call_kept`), and what it can do to the requests that are out late by `step_late`. The
invariants of all modules about the service are proved from these, without looking at `Step` again.

The last section counts calls instead of applications. A caller can see how often `Put` was called, and with fewer
than `2 ^ 64` calls the bound on the applications is met by itself (`appliedOn_le_putCalls`).
-/

namespace DistributedLabs
namespace KvSrv

open Lib

/-! ## What one step can do to the calls and to the requests out late -/

/-- How one client's call comes out of a step: untouched, with its attempt served, or sent again. -/
inductive CallMove (kv : KVServer) (c : ClientId) (e : Event) (call : Call) : Call → Prop where
  | same : CallMove kv c e call call
  | served : call.attempt = .sent → e = .serve c call.id call.op (kv.dispatch call.op).2 →
      CallMove kv c e call { call with attempt := .served (kv.dispatch call.op).2 }
  | resent : CallMove kv c e call call.resend

theorem CallMove.id_eq {kv : KVServer} {c : ClientId} {e : Event} {call call' : Call}
    (h : CallMove kv c e call call') : call'.id = call.id := by
  cases h <;> rfl

theorem CallMove.op_eq {kv : KVServer} {c : ClientId} {e : Event} {call call' : Call}
    (h : CallMove kv c e call call') : call'.op = call.op := by
  cases h <;> rfl

/-- One client sends its attempt again, the others stay where they are. -/
theorem resent_or_same {s : State} {e : Event} {c c₀ : ClientId} {call₀ call' : Call}
    (hc₀ : s.calls c₀ = some call₀) (hc' : Function.update s.calls c₀ (some call₀.resend) c = some call') :
    ∃ call, s.calls c = some call ∧ CallMove s.kv c e call call' := by
  rcases update_cases hc' with ⟨rfl, hnew⟩ | ⟨_, hc⟩
  · obtain rfl := Option.some.inj hnew
    exact ⟨call₀, hc₀, .resent⟩
  · exact ⟨call', hc, .same⟩

/-- A call in progress after a step is new, or was in progress before and made a move. -/
theorem step_calls {s s' : State} {e : Event} (h : Step s e s') {c : ClientId} {call' : Call}
    (hc' : s'.calls c = some call') :
    (∃ op, e = .invoke c s.nextId op ∧ call' = ⟨s.nextId, op, false, .sent⟩ ∧ s.calls c = none)
    ∨ (∃ call, s.calls c = some call ∧ CallMove s.kv c e call call') := by
  cases h with
  | @invoke c₀ op hnone =>
      rcases update_cases hc' with ⟨rfl, hnew⟩ | ⟨_, hc⟩
      · exact Or.inl ⟨op, rfl, (Option.some.inj hnew).symm, hnone⟩
      · exact Or.inr ⟨call', hc, .same⟩
  | @serve c₀ call hc₀ hatt =>
      right
      rcases update_cases hc' with ⟨rfl, hnew⟩ | ⟨_, hc⟩
      · obtain rfl := Option.some.inj hnew
        exact ⟨call, hc₀, .served hatt rfl⟩
      · exact ⟨call', hc, .same⟩
  | drop hc₀ _ => exact Or.inr (resent_or_same hc₀ hc')
  | lose hc₀ _ => exact Or.inr (resent_or_same hc₀ hc')
  | abandon hc₀ _ => exact Or.inr (resent_or_same hc₀ hc')
  | serveLate _ => exact Or.inr ⟨call', hc', .same⟩
  | ret _ _ =>
      right
      rcases update_cases hc' with ⟨_, hnew⟩ | ⟨_, hc⟩
      · cases hnew
      · exact ⟨call', hc, .same⟩

/-- A return is the end of a call whose attempt came back. -/
theorem step_ret {s s' : State} {c : ClientId} {id : Nat} {op : Op} {r : Reply}
    (h : Step s (.ret c id op r) s') :
    ∃ call r₀, s.calls c = some call ∧ call.attempt = .served r₀ ∧ call.id = id ∧ call.op = op
      ∧ r = clerkResult call.retried r₀ ∧ s' = s.setCall c none := by
  cases h with
  | @ret _ call r₀ hc hatt => exact ⟨call, r₀, hc, hatt, rfl, rfl, rfl, rfl⟩

/-- A call in progress makes a move, or returns. -/
theorem step_call_kept {s s' : State} {e : Event} (h : Step s e s') {c : ClientId} {call : Call}
    (hc : s.calls c = some call) :
    (∃ call', s'.calls c = some call' ∧ call'.id = call.id ∧ call'.op = call.op)
    ∨ (∃ r, call.attempt = .served r ∧ e = .ret c call.id call.op (clerkResult call.retried r)
      ∧ s'.calls c = none) := by
  cases hc' : s'.calls c with
  | some call' =>
      rcases step_calls h hc' with ⟨_, _, _, hnone⟩ | ⟨call₀, hc₀, hmove⟩
      · rw [hnone] at hc
        cases hc
      · obtain rfl := Option.some.inj (hc₀.symm.trans hc)
        exact Or.inl ⟨call', rfl, hmove.id_eq, hmove.op_eq⟩
  | none =>
      right
      -- only a return ends a call
      have hlost : ∀ {c₀ : ClientId} {x : Option Call}, Function.update s.calls c₀ x c = none →
          c = c₀ ∧ x = none := by
        intro c₀ x hup
        rcases update_cases hup with hnone | ⟨_, hnone⟩
        · exact hnone
        · rw [hc] at hnone
          cases hnone
      cases h with
      | invoke _ => cases (hlost hc').2
      | serve _ _ => cases (hlost hc').2
      | drop _ _ => cases (hlost hc').2
      | lose _ _ => cases (hlost hc').2
      | abandon _ _ => cases (hlost hc').2
      | serveLate _ =>
          rw [show s.calls c = none from hc'] at hc
          cases hc
      | @ret c₀ call₀ r hc₀ hatt =>
          obtain ⟨rfl, _⟩ := hlost hc'
          obtain rfl := Option.some.inj (hc₀.symm.trans hc)
          exact ⟨r, hatt, rfl, rfl⟩

/-- A request out late after a step was out late before, or was abandoned by this step, whose call is
    now marked as retried. -/
theorem step_late {s s' : State} {e : Event} (h : Step s e s') {id : Nat} {op : Op}
    (hl' : (id, op) ∈ s'.late) :
    (id, op) ∈ s.late ∨ ∃ c call, s.calls c = some call ∧ call.id = id ∧ call.op = op
      ∧ s'.calls c = some call.resend := by
  cases h with
  | invoke _ => exact Or.inl hl'
  | serve _ _ => exact Or.inl hl'
  | drop _ _ => exact Or.inl hl'
  | lose _ _ => exact Or.inl hl'
  | @abandon c call hc hatt =>
      rcases List.mem_cons.mp hl' with heq | hmem
      · obtain ⟨rfl, rfl⟩ := Prod.mk.inj heq
        exact Or.inr ⟨c, call, hc, rfl, rfl, by simp⟩
      · exact Or.inl hmem
  | serveLate _ => exact Or.inl (List.mem_of_mem_erase hl')
  | ret _ _ => exact Or.inl hl'

/-- Invoking uses up the next number; nothing else does. -/
theorem step_nextId {s s' : State} {e : Event} (h : Step s e s') :
    (∃ c op, e = .invoke c s.nextId op ∧ s'.nextId = s.nextId + 1)
    ∨ ((∀ c id op, e ≠ .invoke c id op) ∧ s'.nextId = s.nextId) := by
  cases h with
  | @invoke c op _ => exact Or.inl ⟨c, op, rfl, rfl⟩
  | serve _ _ => exact Or.inr ⟨by simp, rfl⟩
  | drop _ _ => exact Or.inr ⟨by simp, rfl⟩
  | lose _ _ => exact Or.inr ⟨by simp, rfl⟩
  | abandon _ _ => exact Or.inr ⟨by simp, rfl⟩
  | serveLate _ => exact Or.inr ⟨by simp, rfl⟩
  | ret _ _ => exact Or.inr ⟨by simp, rfl⟩

theorem step_nextId_le {s s' : State} {e : Event} (h : Step s e s') : s.nextId ≤ s'.nextId := by
  rcases step_nextId h with ⟨c, op, _, hn⟩ | ⟨_, hn⟩ <;> omega

/-! ## Calls keep their request -/

/-- The naming invariant: every call in progress, every request out late and every applied Put goes back
    to one invocation, and a number names one invocation. -/
structure CallsOk (tr : List Event) (s : State) : Prop where
  invoked : ∀ {c call}, s.calls c = some call → .invoke c call.id call.op ∈ tr
  lateInvoked : ∀ {id op}, (id, op) ∈ s.late → ∃ c, .invoke c id op ∈ tr
  appliedInvoked : ∀ {id args}, (id, args) ∈ applied tr → ∃ c, .invoke c id (.put args) ∈ tr
  idLt : ∀ {c id op}, .invoke c id op ∈ tr → id < s.nextId
  unique : ∀ {c id op c' op'}, .invoke c id op ∈ tr → .invoke c' id op' ∈ tr → c = c' ∧ op = op'

theorem callsOk_init : CallsOk [] net.init :=
  { invoked := fun h => by simp [net] at h
    lateInvoked := fun h => by simp [net] at h
    appliedInvoked := fun h => by simp [applied] at h
    idLt := fun h => by simp at h
    unique := fun h => by simp at h }

theorem callsOk_step {tr : List Event} {s s' : State} {e : Event} (h : CallsOk tr s)
    (hs : Step s e s') : CallsOk (tr ++ [e]) s' := by
  have hold : ∀ {c id op}, .invoke c id op ∈ tr → Event.invoke c id op ∈ tr ++ [e] :=
    fun hm => List.mem_append_left _ hm
  have hlate : ∀ {id op}, (id, op) ∈ s.late → ∃ c, .invoke c id op ∈ tr ++ [e] := by
    intro id op hl
    obtain ⟨c, hc⟩ := h.lateInvoked hl
    exact ⟨c, hold hc⟩
  refine ⟨?_, ?_, ?_, ?_, ?_⟩
  -- a call in progress was in progress before, or this step invokes it
  · intro c call' hc'
    rcases step_calls hs hc' with ⟨op, he, hcall, _⟩ | ⟨call, hc, hmove⟩
    · subst hcall; exact List.mem_append_right _ (by simp [he])
    · rw [hmove.id_eq, hmove.op_eq]; exact hold (h.invoked hc)
  · intro id op hl'
    rcases step_late hs hl' with hl | ⟨c, call, hc, hid, hop, _⟩
    · exact hlate hl
    · subst hid; subst hop; exact ⟨c, hold (h.invoked hc)⟩
  -- what this step applies belongs to a call in progress, or to a request that is out late
  · intro id args ha
    rw [applied_snoc, List.mem_append] at ha
    rcases ha with ha | ha
    · obtain ⟨c, hc⟩ := h.appliedInvoked ha
      exact ⟨c, hold hc⟩
    · rcases step_applied hs (by simpa using ha) with ⟨c, call, hc, _, hid, hop, _⟩ | ⟨hl, _⟩
      · subst hid; rw [← hop]; exact ⟨c, hold (h.invoked hc)⟩
      · exact hlate hl
  · intro c id op hm
    rcases List.mem_append.mp hm with hm | hm
    · exact Nat.lt_of_lt_of_le (h.idLt hm) (step_nextId_le hs)
    · rcases step_nextId hs with ⟨c₁, op₁, he, hn⟩ | ⟨hne, _⟩
      · obtain ⟨-, rfl, -⟩ : c = c₁ ∧ id = s.nextId ∧ op = op₁ := by simpa [he] using hm
        omega
      · exact absurd (List.mem_singleton.mp hm).symm (hne c id op)
  · intro c id op c' op' hm hm'
    rcases step_nextId hs with ⟨c₁, op₁, he, hn⟩ | ⟨hne, _⟩
    · -- an old invocation has a smaller number than the new one
      rcases List.mem_append.mp hm with hm | hm <;> rcases List.mem_append.mp hm' with hm' | hm'
      · exact h.unique hm hm'
      · have hlt := h.idLt hm
        have hq : c' = c₁ ∧ id = s.nextId ∧ op' = op₁ := by simpa [he] using hm'
        omega
      · have hlt := h.idLt hm'
        have hq : c = c₁ ∧ id = s.nextId ∧ op = op₁ := by simpa [he] using hm
        omega
      · have hq : c = c₁ ∧ id = s.nextId ∧ op = op₁ := by simpa [he] using hm
        have hq' : c' = c₁ ∧ id = s.nextId ∧ op' = op₁ := by simpa [he] using hm'
        exact ⟨hq.1.trans hq'.1.symm, hq.2.2.trans hq'.2.2.symm⟩
    · have hback : ∀ {c id op}, Event.invoke c id op ∈ tr ++ [e] → .invoke c id op ∈ tr := by
        intro c id op hmem
        rcases List.mem_append.mp hmem with hmem | hmem
        · exact hmem
        · exact absurd (List.mem_singleton.mp hmem).symm (hne c id op)
      exact h.unique (hback hm) (hback hm')

theorem callsOk {tr : List Event} {s : State} (h : Reaches net tr s) : CallsOk tr s :=
  Reaches.invariant callsOk_init (fun _ _ _ _ _ ih hs => callsOk_step ih hs) h

/-- Two clients are never inside the same call. -/
theorem CallsOk.client_eq {tr : List Event} {s : State} (h : CallsOk tr s) {c c' : ClientId}
    {call call' : Call} (hc : s.calls c = some call) (hc' : s.calls c' = some call')
    (hid : call.id = call'.id) : c = c' := by
  have hi := h.invoked hc
  rw [hid] at hi
  exact (h.unique hi (h.invoked hc')).1

/-- A number not yet used has no request out late. -/
theorem CallsOk.fresh_late {tr : List Event} {s : State} (h : CallsOk tr s) {op : Op} :
    (s.nextId, op) ∉ s.late := by
  intro hl
  obtain ⟨c, hc⟩ := h.lateInvoked hl
  exact absurd (h.idLt hc) (Nat.lt_irrefl _)

/-- A number not yet used has had nothing applied. -/
theorem CallsOk.fresh_timesApplied {tr : List Event} {s : State} (h : CallsOk tr s) :
    timesApplied tr s.nextId = 0 := by
  rw [timesApplied, List.countP_eq_zero]
  rintro ⟨id, args⟩ hmem
  obtain ⟨c, hc⟩ := h.appliedInvoked hmem
  have hlt := h.idLt hc
  simp only [decide_eq_true_eq]
  omega

/-! ## The store is the applied Puts -/

/-- What the Puts applied on a key, oldest first, leave in the store. -/
def entryOf (l : List (Nat × PutArgs)) : Option KVStoreEntry :=
  l.getLast?.map (fun p => ⟨p.2.value, UInt64.ofNat l.length⟩)

@[simp] theorem entryOf_nil : entryOf [] = none := rfl

@[simp] theorem entryOf_snoc (l : List (Nat × PutArgs)) (p : Nat × PutArgs) :
    entryOf (l ++ [p]) = some ⟨p.2.value, UInt64.ofNat l.length + 1⟩ := by
  simp [entryOf]

/-- Nothing has been applied, or there is a last Put, with the number of those before it. -/
theorem entryOf_cases (l : List (Nat × PutArgs)) :
    (l = [] ∧ entryOf l = none) ∨
      ∃ before p, l = before ++ [p] ∧ entryOf l = some ⟨p.2.value, UInt64.ofNat before.length + 1⟩ := by
  rcases List.eq_nil_or_concat l with rfl | ⟨before, p, rfl⟩
  · exact Or.inl ⟨rfl, entryOf_nil⟩
  · rw [List.concat_eq_append]
    exact Or.inr ⟨before, p, rfl, entryOf_snoc before p⟩

/-- The store and the versions, in terms of the Puts applied so far. -/
structure StoreOk (tr : List Event) (s : State) : Prop where
  store : ∀ k, s.kv.kvStore k = entryOf (appliedOn tr k)
  version : ∀ {k j p}, (appliedOn tr k)[j]? = some p → p.2.version = UInt64.ofNat j

/-- The version a Put has to carry is the number of Puts applied on its key. -/
theorem StoreOk.currentVersion {tr : List Event} {s : State} (h : StoreOk tr s) (k : String) :
    s.kv.currentVersion k = UInt64.ofNat (appliedOn tr k).length := by
  rw [KVServer.currentVersion, h.store k]
  rcases entryOf_cases (appliedOn tr k) with ⟨hnil, hnone⟩ | ⟨before, p, hlast, hsome⟩
  · rw [hnone, hnil]
    simp
  · rw [hsome, hlast]
    simp

theorem storeOk_init : StoreOk [] net.init :=
  { store := fun k => rfl
    version := fun h => by simp [appliedOn, applied] at h }

theorem storeOk_step {tr : List Event} {s s' : State} {e : Event} (h : StoreOk tr s)
    (hs : Step s e s') : StoreOk (tr ++ [e]) s' := by
  rcases step_store hs with ⟨id, args, ha, hv, hkv⟩ | ⟨hnone, hkv⟩
  · have hcur := h.currentVersion args.key
    refine ⟨fun k => ?_, fun {k j p} hj => ?_⟩
    · by_cases hk : k = args.key
      · subst hk
        rw [hkv, set_kvStore_self, appliedOn_snoc_self ha, entryOf_snoc, ← hcur, hv]
      · rw [hkv, set_kvStore_ne hk, appliedOn_snoc_ne ha hk, h.store]
    · by_cases hk : k = args.key
      · subst hk
        rw [appliedOn_snoc_self ha] at hj
        -- an earlier Put, the new one, or none
        rcases Nat.lt_trichotomy j (appliedOn tr args.key).length with hlt | heq | hgt
        · rw [List.getElem?_append_left hlt] at hj
          exact h.version hj
        · rw [heq, List.getElem?_append_right (Nat.le_refl _)] at hj
          obtain rfl : (id, args) = p := by simpa using hj
          rw [hv, hcur, heq]
        · rw [List.getElem?_append_right (Nat.le_of_lt hgt)] at hj
          have hpos : j - (appliedOn tr args.key).length ≠ 0 := by omega
          simp [hpos] at hj
      · rw [appliedOn_snoc_ne ha hk] at hj
        exact h.version hj
  · refine ⟨fun k => ?_, fun {k j p} hj => ?_⟩
    · rw [hkv, appliedOn_snoc_none hnone, h.store]
    · rw [appliedOn_snoc_none hnone] at hj
      exact h.version hj

theorem storeOk {tr : List Event} {s : State} (h : Reaches net tr s) : StoreOk tr s :=
  Reaches.invariant storeOk_init (fun _ _ _ _ _ ih hs => storeOk_step ih hs) h

/-- A key is present exactly when something has been applied on it; it never disappears again. -/
theorem StoreOk.present_iff {tr : List Event} {s : State} (h : StoreOk tr s) (k : String) :
    s.kv.kvStore k ≠ none ↔ 0 < (appliedOn tr k).length := by
  rw [h.store k]
  rcases entryOf_cases (appliedOn tr k) with ⟨hnil, hnone⟩ | ⟨before, p, hlast, hsome⟩
  · rw [hnone, hnil]
    simp
  · rw [hsome, hlast]
    simp

/-! ## At most once -/

/-- A list in which only one position can satisfy a predicate satisfies it at most once. -/
theorem countP_le_one {α : Type} {p : α → Bool} : ∀ {l : List α},
    (∀ (i j : Nat) (x y : α), l[i]? = some x → l[j]? = some y → p x = true → p y = true → i = j) →
    l.countP p ≤ 1
  | [], _ => by simp
  | a :: l, h => by
      have htail : l.countP p ≤ 1 := by
        refine countP_le_one (fun i j x y hi hj hx hy => ?_)
        exact Nat.succ.inj (h (i + 1) (j + 1) x y (by simpa using hi) (by simpa using hj) hx hy)
      by_cases ha : p a = true
      · have hnone : l.countP p = 0 := by
          rw [List.countP_eq_zero]
          intro y hy hpy
          obtain ⟨j, hj⟩ := List.mem_iff_getElem?.mp hy
          exact absurd (h 0 (j + 1) a y (by simp) (by simpa using hj) ha hpy) (by omega)
        rw [List.countP_cons_of_pos ha]
        omega
      · rw [List.countP_cons_of_neg ha]
        exact htail

/-- The Puts a call has applied are all on the key of its request. -/
theorem CallsOk.timesApplied_eq {tr : List Event} {s : State} (h : CallsOk tr s) {c : ClientId}
    {id : Nat} {args : PutArgs} (hinv : .invoke c id (.put args) ∈ tr) :
    timesApplied tr id = (appliedOn tr args.key).countP (fun p => p.1 = id) := by
  rw [timesApplied, appliedOn, List.countP_filter]
  refine List.countP_congr (fun p hp => ?_)
  obtain ⟨id', args'⟩ := p
  simp only [decide_eq_true_eq, Bool.and_eq_true]
  refine ⟨fun hid => ⟨hid, ?_⟩, fun hq => hq.1⟩
  subst hid
  obtain ⟨c', hinv'⟩ := h.appliedInvoked hp
  obtain ⟨-, hop⟩ := h.unique hinv' hinv
  rw [Op.put.inj hop]

/-- While a key is missing, nothing of a Put on it has been applied. -/
theorem timesApplied_of_absent {tr : List Event} {s : State} (hcalls : CallsOk tr s) (hstore : StoreOk tr s)
    {c : ClientId} {id : Nat} {args : PutArgs} (hinv : .invoke c id (.put args) ∈ tr)
    (habsent : s.kv.kvStore args.key = none) : timesApplied tr id = 0 := by
  have hempty : appliedOn tr args.key = [] := by
    by_contra hne
    exact (hstore.present_iff args.key).mpr (List.length_pos_of_ne_nil hne) habsent
  rw [hcalls.timesApplied_eq hinv, hempty]
  rfl

/-- At most one attempt of a call changes the store, as long as its key has seen no more than `2 ^ 64`
    Puts: two applications would carry one version at two positions, and positions below `2 ^ 64` have
    different versions. -/
theorem applied_at_most_once {tr : List Event} {s : State} (hcalls : CallsOk tr s) (hstore : StoreOk tr s)
    {c : ClientId} {id : Nat} {args : PutArgs} (hinv : .invoke c id (.put args) ∈ tr)
    (hfew : (appliedOn tr args.key).length ≤ 2 ^ 64) : timesApplied tr id ≤ 1 := by
  rw [hcalls.timesApplied_eq hinv]
  refine countP_le_one (fun i j x y hi hj hx hy => ?_)
  have hargs : ∀ {n : Nat} {p : Nat × PutArgs}, (appliedOn tr args.key)[n]? = some p → p.1 = id →
      n < 2 ^ 64 ∧ args.version = UInt64.ofNat n := by
    rintro n ⟨id', args'⟩ hn rfl
    have hlt : n < (appliedOn tr args.key).length := (List.getElem?_eq_some_iff.mp hn).1
    have hmem : (id', args') ∈ applied tr := (List.mem_filter.mp (List.mem_of_getElem? hn)).1
    obtain ⟨c', hinv'⟩ := hcalls.appliedInvoked hmem
    obtain ⟨-, hop⟩ := hcalls.unique hinv' hinv
    obtain rfl : args' = args := Op.put.inj hop
    exact ⟨by omega, hstore.version hn⟩
  obtain ⟨hi64, hvi⟩ := hargs hi (by simpa using hx)
  obtain ⟨hj64, hvj⟩ := hargs hj (by simpa using hy)
  have hto := congrArg UInt64.toNat (hvi.symm.trans hvj)
  rwa [UInt64.toNat_ofNat_of_lt' hi64, UInt64.toNat_ofNat_of_lt' hj64] at hto

/-! ## Counting calls instead of applications -/

/-- The number of a `Clerk.Put` on a key that an event begins. -/
def Event.putCall (k : String) : Event → Option Nat
  | .invoke _ id (.put args) => if args.key = k then some id else none
  | _ => none

/-- The `Clerk.Put` calls on a key, by number. -/
def putCalls (tr : List Event) (k : String) : List Nat := tr.filterMap (Event.putCall k)

theorem mem_putCalls {tr : List Event} {c : ClientId} {id : Nat} {args : PutArgs}
    (h : .invoke c id (.put args) ∈ tr) : id ∈ putCalls tr args.key := by
  unfold putCalls
  refine List.mem_filterMap.mpr ⟨_, h, ?_⟩
  show (if args.key = args.key then some id else none) = some id
  rw [if_pos rfl]

/-- An applied Put on a key was invoked. -/
theorem CallsOk.appliedOn_invoked {tr : List Event} {s : State} (h : CallsOk tr s) {k : String}
    {p : Nat × PutArgs} (hp : p ∈ appliedOn tr k) : p.2.key = k ∧ ∃ c, .invoke c p.1 (.put p.2) ∈ tr := by
  obtain ⟨hmem, hk⟩ := List.mem_filter.mp hp
  exact ⟨by simpa using hk, h.appliedInvoked hmem⟩

/-- While a key has seen at most `2 ^ 64` applications, each of them is by a call of its own. -/
theorem appliedOn_ids_nodup {tr : List Event} {s : State} (hcalls : CallsOk tr s)
    (hstore : StoreOk tr s) {k : String} (hfew : (appliedOn tr k).length ≤ 2 ^ 64) :
    ((appliedOn tr k).map Prod.fst).Nodup := by
  rw [List.nodup_iff_count_le_one]
  intro id
  by_cases hmem : id ∈ (appliedOn tr k).map Prod.fst
  · obtain ⟨p, hp, rfl⟩ := List.mem_map.mp hmem
    obtain ⟨rfl, c, hc⟩ := hcalls.appliedOn_invoked hp
    have honce := applied_at_most_once hcalls hstore hc hfew
    rw [hcalls.timesApplied_eq hc] at honce
    rw [List.count_eq_countP, List.countP_map]
    exact honce
  · rw [List.count_eq_zero_of_not_mem hmem]
    exact Nat.zero_le 1

theorem appliedOn_le_putCalls_of_few {tr : List Event} {s : State} (hcalls : CallsOk tr s)
    (hstore : StoreOk tr s) {k : String} (hfew : (appliedOn tr k).length ≤ 2 ^ 64) :
    (appliedOn tr k).length ≤ (putCalls tr k).length := by
  have hsub : (appliedOn tr k).map Prod.fst ⊆ putCalls tr k := by
    intro id hid
    obtain ⟨p, hp, rfl⟩ := List.mem_map.mp hid
    obtain ⟨rfl, c, hc⟩ := hcalls.appliedOn_invoked hp
    exact mem_putCalls hc
  have hle := ((appliedOn_ids_nodup hcalls hstore hfew).subperm hsub).length_le
  rwa [List.length_map] at hle

/-- Fewer than `2 ^ 64` calls of `Clerk.Put` on a key make no more applications than calls, so bounding the
    calls bounds the applications. -/
theorem appliedOn_le_putCalls {tr : List Event} {s : State} (hrun : Reaches net tr s) {k : String}
    (hfew : (putCalls tr k).length < 2 ^ 64) : (appliedOn tr k).length ≤ (putCalls tr k).length := by
  refine Reaches.invariant (P := fun tr _ => (putCalls tr k).length < 2 ^ 64 →
    (appliedOn tr k).length ≤ (putCalls tr k).length) (fun _ => Nat.zero_le _) ?_ hrun hfew
  intro tr s e s' hrun ih hs hfew
  have hmono : (putCalls tr k).length ≤ (putCalls (tr ++ [e]) k).length := by
    unfold putCalls
    rw [List.filterMap_append, List.length_append]
    exact Nat.le_add_right _ _
  -- one step applies at most one Put, so the bound of the counting lemma is not passed
  have hone : (appliedOn (tr ++ [e]) k).length ≤ (appliedOn tr k).length + 1 := by
    unfold appliedOn
    rw [applied_snoc, List.filter_append, List.length_append]
    have hlast := List.length_filter_le (fun p : Nat × PutArgs => decide (p.2.key = k)) e.applied.toList
    have htoList : e.applied.toList.length ≤ 1 := by cases e.applied <;> simp
    omega
  have hih := ih (by omega)
  exact appliedOn_le_putCalls_of_few (callsOk_step (callsOk hrun) hs) (storeOk_step (storeOk hrun) hs)
    (by omega)

end KvSrv
end DistributedLabs
