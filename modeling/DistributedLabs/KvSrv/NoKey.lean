import DistributedLabs.KvSrv.Versions

/-!
# `KvSrv.NoKey` — when `ErrNoKey` from a `Clerk.Put` is the last word

A Put on a missing key with a version other than 0 is answered `ErrNoKey`. At that moment nothing of the call has
been applied, since a key never disappears. But an earlier copy of the request may still be out: its `Call` returned
false while the handler had yet to run. The Clerk turns `ErrVersion` into `ErrMaybe` after a resend; `ErrNoKey` it
passes on, and once somebody has created the key and brought it to the version of the request, the copy is applied.

`Settled` says that a call can do nothing any more. It holds when the attempt that brings `ErrNoKey` is executed with
no copy out, and is kept from there on; with a copy out there is a run in which the copy is applied.

So the answer is definite exactly if no copy is out (`noKey_definite_iff`), and the Clerk cannot know: a copy that was
dropped and one that is out look alike to it. `noKey_applied_late` is a run in which it is wrong.
-/

namespace DistributedLabs
namespace KvSrv

open Lib

/-! ## A call that can do nothing any more -/

/-- Nothing of the call has been applied, no copy of its request is out, and its attempt, if it is still in progress,
has been answered. -/
structure Settled (id : Nat) (tr : List Event) (s : State) : Prop where
  notApplied : timesApplied tr id = 0
  noCopy : ∀ op, (id, op) ∉ s.late
  answered : ∀ {c call}, s.calls c = some call → call.id = id → ∃ r, call.attempt = .served r

section Steps

variable {tr mid : List Event} {s s' : State} {e : Event} {c : ClientId} {id : Nat}

/-- An answered call stays as it is until it returns, unless its reply is lost. -/
theorem step_answered {call : Call} {r : Reply} (hs : Step s e s') (hc : s.calls c = some call)
    (hatt : call.attempt = .served r) (hkept : e ≠ .lose c) : s'.calls c = some call ∨ s'.calls c = none := by
  -- the steps of an attempt that is out are not possible any more
  have hsent : ∀ {call' : Call}, s.calls c = some call' → call'.attempt ≠ .sent := by
    intro call' hc' hsent
    obtain rfl := Option.some.inj (hc'.symm.trans hc)
    rw [hatt] at hsent
    cases hsent
  by_cases hclient : e.client = some c
  · cases hs with
    | invoke hnone =>
        obtain rfl := Option.some.inj hclient
        rw [hnone] at hc
        cases hc
    | serve hc' hatt' =>
        obtain rfl := Option.some.inj hclient
        exact absurd hatt' (hsent hc')
    | drop hc' hatt' =>
        obtain rfl := Option.some.inj hclient
        exact absurd hatt' (hsent hc')
    | lose _ _ =>
        obtain rfl := Option.some.inj hclient
        exact absurd rfl hkept
    | abandon hc' hatt' =>
        obtain rfl := Option.some.inj hclient
        exact absurd hatt' (hsent hc')
    | serveLate _ => cases hclient
    | ret _ _ =>
        obtain rfl := Option.some.inj hclient
        exact Or.inr (setCall_calls_self ..)
  · left
    rw [step_other hs hclient]
    exact hc

/-- Only a lost reply could unsettle a call. -/
theorem Settled.step (h : Settled id tr s) (hs : Step s e s') (hold : id ≠ s.nextId)
    (hkept : ∀ {c call}, s.calls c = some call → call.id = id → e ≠ .lose c) : Settled id (tr ++ [e]) s' := by
  -- an answered call stays as it is until it returns, since its reply is not lost
  have hstays : ∀ {c : ClientId} {call call' : Call}, s.calls c = some call → call.id = id →
      s'.calls c = some call' → call' = call := by
    intro c call call' hc hid hc'
    obtain ⟨r, hatt⟩ := h.answered hc hid
    rcases step_answered hs hc hatt (hkept hc hid) with hsame | hnone
    · exact Option.some.inj (hc'.symm.trans hsame)
    · rw [hnone] at hc'
      cases hc'
  refine ⟨?_, fun op hl' => ?_, ?_⟩
  · rw [timesApplied_step_eq, h.notApplied]
    intro args ha
    rcases step_applied hs ha with ⟨c, call, hc, hsent, hid, _⟩ | ⟨hl, _⟩
    · obtain ⟨r, hatt⟩ := h.answered hc hid
      rw [hatt] at hsent
      cases hsent
    · exact h.noCopy _ hl
  · rcases step_late hs hl' with hl | ⟨c, call, hc, hid, _, hresent⟩
    · exact h.noCopy op hl
    · obtain ⟨r, hatt⟩ := h.answered hc hid
      rw [← hstays hc hid hresent] at hatt
      cases hatt
  · intro c call' hc' hid'
    rcases step_calls hs hc' with ⟨op, _, rfl, _⟩ | ⟨call, hc, hmove⟩
    · exact absurd hid'.symm hold
    · have hid : call.id = id := hmove.id_eq.symm.trans hid'
      rw [hstays hc hid hc']
      exact h.answered hc hid

/-- A settled call stays settled while its client makes no move, and when it has returned for good. -/
theorem settled_run {op : Op} (hrun : Reaches net tr s) (h : Settled id tr s) (hinv : .invoke c id op ∈ tr)
    (hmid : Run net s mid s') (hquiet : (∀ e ∈ mid, e.client ≠ some c) ∨ ∃ r, .ret c id op r ∈ tr) :
    Settled id (tr ++ mid) s' := by
  refine Run.invariant (P := fun mid s' => ((∀ e ∈ mid, e.client ≠ some c) ∨ ∃ r, .ret c id op r ∈ tr) →
    Settled id (tr ++ mid) s') ?_ ?_ hmid hquiet
  · intro _
    rw [List.append_nil]
    exact h
  · intro mid s₁ e s₂ hmid ih hs hquiet
    have hreach := hrun.append hmid
    have hC := callsOk hreach
    have hinv' : .invoke c id op ∈ tr ++ mid := List.mem_append_left _ hinv
    have hset : Settled id (tr ++ mid) s₁ :=
      ih (hquiet.imp_left (fun hq e he => hq e (List.mem_append_left _ he)))
    rw [← List.append_assoc]
    apply hset.step hs
    · exact Nat.ne_of_lt (hC.idLt hinv')
    · intro c' call hc' hid he
      rcases hquiet with hquiet | ⟨r, hret⟩
      · -- the client of the call is the one that was to keep still
        have hcall := hC.invoked hc'
        rw [hid] at hcall
        obtain ⟨rfl, _⟩ := hC.unique hcall hinv'
        apply hquiet e (List.mem_append_right _ (List.mem_singleton_self _))
        rw [he]
        rfl
      · exact (verdictOk hreach).done (List.mem_append_left _ hret) hc' hid

/-- The attempt that brings `ErrNoKey` settles its call, if no copy of the request is out. -/
theorem settled_of_noKey {args : PutArgs} (hrun : Reaches net tr s)
    (hs : Step s (.serve c id (.put args) (.put ⟨.ErrNoKey⟩)) s') (hlate : ∀ op, (id, op) ∉ s.late) :
    Settled id (tr ++ [.serve c id (.put args) (.put ⟨.ErrNoKey⟩)]) s' := by
  have hC := callsOk hrun
  obtain ⟨call, hc, _, rfl, hop, hr, rfl⟩ := step_serve hs
  refine ⟨?_, hlate, ?_⟩
  · obtain ⟨args', heq, habsent⟩ := dispatch_noKey hr.symm
    obtain rfl := Op.put.inj heq
    have hinv := hC.invoked hc
    rw [hop] at hinv
    rw [timesApplied_snoc_none rfl]
    exact timesApplied_of_absent hC (storeOk hrun) hinv habsent
  · intro c' call' hc' hid
    rcases update_cases hc' with ⟨_, hnew⟩ | ⟨hne, hc'⟩
    · obtain rfl := Option.some.inj hnew
      exact ⟨_, rfl⟩
    · exact absurd (hC.client_eq hc' hc hid) hne

end Steps

/-! ## A copy that is still out -/

/-- A client on its own can bring a key to any version. -/
theorem exists_version (s : State) {c : ClientId} (hc : s.calls c = none) (k : String) (version : Tversion) :
    ∃ tr s', Run net s tr s' ∧ s'.late = s.late ∧ s'.kv.currentVersion k = version := by
  have hclimb : ∀ n : Nat, ∃ tr s', Run net s tr s' ∧ s'.late = s.late ∧ s'.calls = s.calls
      ∧ s'.kv.currentVersion k = s.kv.currentVersion k + UInt64.ofNat n := by
    intro n
    induction n with
    | zero => exact ⟨[], s, Run.nil, rfl, rfl, (UInt64.add_zero _).symm⟩
    | succ n ih =>
        -- one more Put, with the version that the last one left
        obtain ⟨tr, s₁, hrun, hlate, hcalls, hversion⟩ := ih
        have hidle : s₁.calls c = none := by rw [hcalls]; exact hc
        have hput := call_run hidle (.put ⟨k, "", s₁.kv.currentVersion k⟩)
        refine ⟨_, _, hrun.append hput, hlate, hcalls, ?_⟩
        show ((s₁.kv.put ⟨k, "", s₁.kv.currentVersion k⟩).1).currentVersion k = _
        rw [put_of_current rfl, currentVersion_set, hversion, UInt64.ofNat_add, ← UInt64.add_assoc]
        rfl
  obtain ⟨tr, s', hrun, hlate, _, hversion⟩ := hclimb (version - s.kv.currentVersion k).toNat
  refine ⟨tr, s', hrun, hlate, ?_⟩
  rw [hversion, UInt64.ofNat_toNat, UInt64.add_comm, UInt64.sub_add_cancel]

theorem timesApplied_ne_zero {tr : List Event} {e : Event} {id : Nat} {args : PutArgs} (hmem : e ∈ tr)
    (ha : e.applied = some (id, args)) : timesApplied tr id ≠ 0 := by
  have happ : (id, args) ∈ applied tr := List.mem_filterMap.mpr ⟨e, hmem, ha⟩
  have hpos : 0 < timesApplied tr id := List.countP_pos_iff.mpr ⟨_, happ, by simp⟩
  exact Nat.ne_of_gt hpos

/-- A copy of a Put that is out is applied in some run, if there is a client to prepare the key. -/
theorem copy_applied {s : State} {c : ClientId} {id : Nat} {args : PutArgs} (hc : s.calls c = none)
    (hlate : (id, .put args) ∈ s.late) : ∃ tr s', Run net s tr s' ∧ timesApplied tr id ≠ 0 := by
  obtain ⟨tr, s₁, hrun, hsame, hversion⟩ := exists_version s hc args.key args.version
  have hmem : (id, .put args) ∈ s₁.late := by rw [hsame]; exact hlate
  refine ⟨_, _, hrun.snoc (Step.serveLate hmem), ?_⟩
  apply timesApplied_ne_zero (List.mem_append_right _ (List.mem_singleton_self _))
  rw [dispatch_current hversion]
  rfl

/-! ## The verdict -/

section Verdict

variable {tr : List Event} {s s' : State} {c : ClientId} {id : Nat} {args : PutArgs}

/-- With no copy out, nothing of the call is applied, however the run goes on. -/
theorem noKey_definite (hrun : Reaches net tr s) (hs : Step s (.serve c id (.put args) (.put ⟨.ErrNoKey⟩)) s')
    (hlate : ∀ op, (id, op) ∉ s.late) {mid post : List Event} {s'' : State}
    (hrest : Run net s' (mid ++ .ret c id (.put args) (.put ⟨.ErrNoKey⟩) :: post) s'')
    (hquiet : ∀ e ∈ mid, e.client ≠ some c) :
    timesApplied (tr ++ .serve c id (.put args) (.put ⟨.ErrNoKey⟩) ::
      (mid ++ .ret c id (.put args) (.put ⟨.ErrNoKey⟩) :: post)) id = 0 := by
  obtain ⟨s₁, s₂, hmid, hret, hpost⟩ := Run.split_cons hrest
  have hreach := hrun.snoc hs
  have hreach₁ := hreach.append hmid
  have hinv : Event.invoke c id (.put args) ∈ tr ++ [.serve c id (.put args) (.put ⟨.ErrNoKey⟩)] :=
    (repliesOk hreach).serveInvoked (List.mem_append_right _ (List.mem_singleton_self _))
  -- up to the return, the return itself, and what comes after it
  have hmiddle := settled_run hreach (settled_of_noKey hrun hs hlate) hinv hmid (Or.inl hquiet)
  have hold := Nat.ne_of_lt ((callsOk hreach₁).idLt (List.mem_append_left mid hinv))
  have hback := hmiddle.step hret hold (fun _ _ he => by cases he)
  have hend := settled_run (hreach₁.snoc hret) hback (List.mem_append_left _ (List.mem_append_left _ hinv))
    hpost (Or.inr ⟨_, List.mem_append_right _ (List.mem_singleton_self _)⟩)
  have hnone := hend.notApplied
  simp only [List.append_assoc, List.singleton_append] at hnone
  exact hnone

/-- With a copy out, the call can return and the copy be applied afterwards. -/
theorem noKey_not_definite (hrun : Reaches net tr s)
    (hs : Step s (.serve c id (.put args) (.put ⟨.ErrNoKey⟩)) s') {op : Op} (hlate : (id, op) ∈ s.late) :
    ∃ post s'', Run net s' (.ret c id (.put args) (.put ⟨.ErrNoKey⟩) :: post) s'' ∧ timesApplied post id ≠ 0 := by
  obtain ⟨call, hc, _, rfl, hop, _, hs'⟩ := step_serve hs
  have hC := callsOk hrun
  have hinv := hC.invoked hc
  -- the copy carries the request of the call
  obtain ⟨c', hinv'⟩ := hC.lateInvoked hlate
  obtain ⟨rfl, rfl⟩ := hC.unique hinv' hinv
  rw [hop] at hlate
  have hret := ret_of_serve hs (fun retried => by simp [clerkResult, putResult])
  have hout : (call.id, .put args) ∈ (s'.setCall c' none).late := by
    rw [setCall_late, hs']
    exact hlate
  obtain ⟨post, s'', hpost, hne⟩ := copy_applied (setCall_calls_self ..) hout
  exact ⟨post, s'', hpost.cons hret, hne⟩

/-- **When `ErrNoKey` is definite.** Let an attempt of a `Clerk.Put` be executed and answered `ErrNoKey`. In every run
in which the call returns with that answer nothing of it is ever applied, before or after the return, exactly if no
copy of the request was out when the attempt was executed. -/
theorem noKey_definite_iff {tr : List Event} {s s' : State} {c : ClientId} {id : Nat} {args : PutArgs}
    (hrun : Reaches net tr s) (hs : Step s (.serve c id (.put args) (.put ⟨.ErrNoKey⟩)) s') :
    (∀ mid post s'', Run net s' (mid ++ .ret c id (.put args) (.put ⟨.ErrNoKey⟩) :: post) s'' →
      (∀ e ∈ mid, e.client ≠ some c) →
      timesApplied (tr ++ .serve c id (.put args) (.put ⟨.ErrNoKey⟩) ::
        (mid ++ .ret c id (.put args) (.put ⟨.ErrNoKey⟩) :: post)) id = 0)
    ↔ ∀ op, (id, op) ∉ s.late := by
  refine ⟨fun hdefinite op hlate => ?_, fun hlate mid post s'' => noKey_definite hrun hs hlate⟩
  obtain ⟨post, s'', hpost, hne⟩ := noKey_not_definite hrun hs hlate
  have hzero := hdefinite [] post s'' hpost (fun e he => absurd he List.not_mem_nil)
  apply hne
  rw [show tr ++ .serve c id (.put args) (.put ⟨.ErrNoKey⟩) ::
    ([] ++ .ret c id (.put args) (.put ⟨.ErrNoKey⟩) :: post) = (tr ++ [.serve c id (.put args) (.put ⟨.ErrNoKey⟩),
      .ret c id (.put args) (.put ⟨.ErrNoKey⟩)]) ++ post by simp, timesApplied_append] at hzero
  omega

end Verdict

/-- Client 1 leaves a copy of its own Put out. Of client 0's Put a request is dropped, and the reply to the next one,
    which found the key missing. -/
def resentNoKeyTrace : List Event :=
  [.invoke 1 0 (.put ⟨"x", "y", 0⟩), .abandon 1, .invoke 0 1 (.put ⟨"k", "v", 1⟩), .drop 0,
    .serve 0 1 (.put ⟨"k", "v", 1⟩) (.put ⟨.ErrNoKey⟩), .lose 0]

/-- The third attempt finds the key missing too, and that is definite. -/
theorem noKey_definite_iff_resent :
    ∃ s s', Reaches net resentNoKeyTrace s ∧ s.late = [(0, .put ⟨"x", "y", 0⟩)]
      ∧ Step s (.serve 0 1 (.put ⟨"k", "v", 1⟩) (.put ⟨.ErrNoKey⟩)) s'
      ∧ ∀ mid post s'', Run net s' (mid ++ .ret 0 1 (.put ⟨"k", "v", 1⟩) (.put ⟨.ErrNoKey⟩) :: post) s'' →
        (∀ e ∈ mid, e.client ≠ some 0) →
        timesApplied (resentNoKeyTrace ++ .serve 0 1 (.put ⟨"k", "v", 1⟩) (.put ⟨.ErrNoKey⟩) ::
          (mid ++ .ret 0 1 (.put ⟨"k", "v", 1⟩) (.put ⟨.ErrNoKey⟩) :: post)) 1 = 0 := by
  have hreach : ∃ s', Reaches net (resentNoKeyTrace ++ [.serve 0 1 (.put ⟨"k", "v", 1⟩) (.put ⟨.ErrNoKey⟩)]) s'
      ∧ decide (s'.late = [(0, .put ⟨"x", "y", 0⟩)]) = true :=
    exists_reaches_with net_computedBy _ (by decide)
  obtain ⟨s', hrun', hlate⟩ := hreach
  obtain ⟨s, hrun, hserve⟩ := Run.of_snoc hrun'
  have hsame : s.late = [(0, .put ⟨"x", "y", 0⟩)] := by
    obtain ⟨_, _, _, _, _, _, rfl⟩ := step_serve hserve
    exact of_decide_eq_true hlate
  refine ⟨s, s', hrun, hsame, hserve, ?_⟩
  exact (noKey_definite_iff hrun hserve).mpr (fun op hmem => by simp [hsame] at hmem)

/-- Client 0 gives up on its first copy, is told `ErrNoKey` for the second and returns. Client 1 creates the key at
    version 1, for which client 0's first copy is just right. -/
def lateNoKeyTrace : List Event :=
  [.invoke 0 0 (.put ⟨"k", "v", 1⟩), .abandon 0, .serve 0 0 (.put ⟨"k", "v", 1⟩) (.put ⟨.ErrNoKey⟩),
    .ret 0 0 (.put ⟨"k", "v", 1⟩) (.put ⟨.ErrNoKey⟩),
    .invoke 1 1 (.put ⟨"k", "x", 0⟩), .serve 1 1 (.put ⟨"k", "x", 0⟩) (.put ⟨.OK⟩),
    .ret 1 1 (.put ⟨"k", "x", 0⟩) (.put ⟨.OK⟩), .serveLate 0 (.put ⟨"k", "v", 1⟩) (.put ⟨.OK⟩)]

/-- The Put is applied, after its Clerk has returned `ErrNoKey`. -/
theorem noKey_applied_late :
    .ret 0 0 (.put ⟨"k", "v", 1⟩) (.put ⟨.ErrNoKey⟩) ∈ lateNoKeyTrace ∧ timesApplied lateNoKeyTrace 0 = 1
      ∧ ∃ s, Reaches net lateNoKeyTrace s ∧ s.kv.kvStore "k" = some ⟨"v", 2⟩ := by
  refine ⟨by decide, by decide, ?_⟩
  have hreach : ∃ s, Reaches net lateNoKeyTrace s ∧ decide (s.kv.kvStore "k" = some ⟨"v", 2⟩) = true :=
    exists_reaches_with net_computedBy _ (by decide)
  obtain ⟨s, hs, hstore⟩ := hreach
  exact ⟨s, hs, of_decide_eq_true hstore⟩

end KvSrv
end DistributedLabs
