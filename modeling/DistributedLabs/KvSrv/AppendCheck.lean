import DistributedLabs.KvSrv.AppendSafety

/-!
# `KvSrv.AppendCheck` — every run of the appending clients passes the check

`CheckAppends` counts, for each client, the numbers its entries skip. On a list in which each client's numbers
grow, the count is the number after the last one less the number of entries (`Tallied`); and since every Put that
returned `OK` left an entry, no more is skipped than returned `ErrMaybe`.

The result is `appends_exact`. It says what the test wants to know directly, without the check: an append that returned
`OK` is in the list once, one that returned `ErrMaybe` once or not at all, nothing else is there, and each client's
entries stand in the order in which they were made. That `CheckAppends` passes is one of its parts.
-/

namespace DistributedLabs
namespace KvSrv

open Lib

/-! ## The loop over the entries -/

/-- The maps after the entries `E`. -/
structure Tallied (E : List Entry) (t : Tally) : Prop where
  skipped : ∀ id, t.skipped id + E.countP (fun e => e.id = id) = t.expect id
  last : ∀ id, t.expect id = 0 ∨ ∃ e ∈ E, e.id = id ∧ t.expect id = e.n + 1

theorem Tallied.count {E : List Entry} {t : Tally} {e : Entry} (h : Tallied E t) (hnonneg : 0 ≤ e.n)
    (hlast : ∀ e' ∈ E, e'.id = e.id → e'.n < e.n) : ∃ t', t.count e = .ok t' ∧ Tallied (E ++ [e]) t' := by
  have hle : t.expect e.id ≤ e.n := by
    rcases h.last e.id with hzero | ⟨e', he', hid, hexpect⟩
    · omega
    · have := hlast e' he' hid
      omega
  -- both branches that go on come to the same
  have hcount : t.count e = .ok ⟨Function.update t.expect e.id (e.n + 1),
      Function.update t.skipped e.id (t.skipped e.id + (e.n - t.expect e.id))⟩ := by
    unfold Tally.count
    rw [if_neg (by omega)]
    by_cases heq : t.expect e.id = e.n
    · rw [if_pos heq, heq, Int.sub_self, Int.add_zero, Function.update_eq_self]
    · rw [if_neg heq]
  refine ⟨_, hcount, fun id => ?_, fun id => ?_⟩
  · rw [List.countP_append]
    by_cases hid : id = e.id
    · subst hid
      have := h.skipped e.id
      simp
      omega
    · have := h.skipped id
      simp [hid, Ne.symm hid]
      omega
  · by_cases hid : id = e.id
    · subst hid
      exact Or.inr ⟨e, by simp, rfl, by simp⟩
    · dsimp only
      rw [Function.update_of_ne hid]
      rcases h.last id with hzero | ⟨e', he', heq⟩
      · exact Or.inl hzero
      · exact Or.inr ⟨e', List.mem_append_left _ he', heq⟩

/-- The loop over a list in which each client's numbers grow ends without an error. -/
theorem foldlM_count {E : List Entry} (hordered : E.Pairwise (fun e e' => e.id = e'.id → e.n < e'.n))
    (hnonneg : ∀ e ∈ E, 0 ≤ e.n) : ∃ t, E.foldlM Tally.count {} = .ok t ∧ Tallied E t := by
  induction E using List.reverseRecOn with
  | nil => exact ⟨{}, rfl, fun id => rfl, fun id => Or.inl rfl⟩
  | append_singleton E e ih =>
      obtain ⟨hpre, _, hlast⟩ := List.pairwise_append.mp hordered
      obtain ⟨t, ht, htally⟩ := ih hpre (fun e' he' => hnonneg e' (List.mem_append_left _ he'))
      obtain ⟨t', ht', htally'⟩ := htally.count (hnonneg e (by simp)) (fun e' he' => hlast e' he' e (by simp))
      refine ⟨t', ?_, htally'⟩
      rw [List.foldlM_append, ht]
      show (t.count e >>= pure) = .ok t'
      rw [bind_pure, ht']

/-! ## The loop over the clients -/

theorem forM_ok {α ε : Type} {l : List α} {f : α → Except ε Unit} (h : ∀ x ∈ l, f x = .ok ()) :
    l.forM f = .ok () := by
  induction l with
  | nil => rfl
  | cons x rest ih =>
      show (f x >>= fun _ => rest.forM f) = .ok ()
      rw [h x List.mem_cons_self]
      exact ih (fun y hy => h y (List.mem_cons_of_mem _ hy))

/-- A client has skipped no more numbers than it was told `ErrMaybe`. -/
theorem Tallied.checkClient {E : List Entry} {t : Tally} {a : Appender} {c : Nat} {rs : List ClntRes}
    (h : Tallied E t) (hcount : Counted c E 0 a) (hrs : rs[c]? = some a.result) :
    t.checkClient rs c = .ok () := by
  have hexpect : t.expect c ≤ a.i := by
    rcases h.last c with hzero | ⟨e, he, hid, hexpect⟩
    · omega
    · have := hcount.behind e he hid
      omega
  have htotal := hcount.total
  have hkept := hcount.kept
  have hskipped := h.skipped c
  have hmaybe : ¬ t.skipped c > a.result.nmaybe := by
    show ¬ t.skipped c > a.nmay
    omega
  have hputs : ¬ t.expect c > a.result.nok + a.result.nmaybe := by
    show ¬ t.expect c > a.nok + a.nmay
    omega
  unfold Tally.checkClient
  rw [if_pos (Int.natCast_nonneg c), Int.toNat_natCast, hrs]
  dsimp only
  rw [if_neg hmaybe, if_neg hputs]

/-! ## Whole runs -/

section Runs

variable {S : AppendSetup} {tr : List AppendEvent} {s : AppendState} {E : List Entry}

/-- **The invariant of every run** in which nothing runs late. -/
theorem exists_appendOk (hrun : Reaches (appendSys S) tr s)
    (hlate : ∀ id op r, AppendEvent.rpc (.serveLate id op r) ∉ tr) :
    ∃ E, AppendOk S E s ∧ ReturnsOk S E tr s := by
  revert hlate
  refine Reaches.invariant (P := fun tr s => (∀ id op r, AppendEvent.rpc (.serveLate id op r) ∉ tr) →
    ∃ E, AppendOk S E s ∧ ReturnsOk S E tr s) (fun _ => ?_) ?_ hrun
  · refine ⟨[], appendOk_init S, ⟨fun _ hret => ?_, fun _ he => by cases he⟩⟩
    obtain ⟨_, _, _, hmem⟩ := hret
    cases hmem
  · intro tr s e s' _ ih hs hlate
    obtain ⟨E, h, hR⟩ := ih (fun id op r hmem => hlate id op r (List.mem_append_left _ hmem))
    refine append_step h hR hs (fun id op r heq => hlate id op r ?_)
    rw [heq]
    simp

theorem AppendOk.nodup (h : AppendOk S E s) : E.Nodup :=
  h.ordered.imp (fun hlt heq => absurd (hlt (congrArg Entry.id heq)) (by rw [heq]; exact Int.lt_irrefl _))

/-- When all clients are through, the list passes the check. -/
theorem AppendOk.checkAppends (h : AppendOk S E s) {nclnt : Nat}
    (hme : ∀ c, S.me c = if c < nclnt then some (c : Int) else none)
    (hdone : ∀ c me, S.me c = some me → (s.client c).pc = .returned) :
    checkAppends E nclnt ((List.range nclnt).map (fun c => (s.client c).result))
      (UInt64.ofNat (E.length + 1)) = .ok () := by
  obtain ⟨t, ht, htally⟩ := foldlM_count h.ordered h.nonneg
  have hver : Int64.ofNat E.length + 1 = (UInt64.ofNat (E.length + 1)).toInt64 := by
    rw [UInt64.toInt64_ofNat', Int64.ofNat_add]
    rfl
  have hclients : ∀ id ∈ (List.range nclnt).map Int.ofNat ++ E.map Entry.id,
      t.checkClient ((List.range nclnt).map (fun c => (s.client c).result)) id = .ok () := by
    intro id hid
    -- only clients have entries
    obtain ⟨c, hc, rfl⟩ : ∃ c, c < nclnt ∧ (c : Int) = id := by
      rcases List.mem_append.mp hid with hrange | hentry
      · obtain ⟨c, hc, rfl⟩ := List.mem_map.mp hrange
        exact ⟨c, List.mem_range.mp hc, rfl⟩
      · obtain ⟨e, he, rfl⟩ := List.mem_map.mp hentry
        obtain ⟨c, hc⟩ := h.owned e he
        rw [hme c] at hc
        split at hc
        · exact ⟨c, ‹_›, Option.some.inj hc⟩
        · cases hc
    have hmec : S.me c = some (c : Int) := by rw [hme c, if_pos hc]
    obtain ⟨hcount, _⟩ := ((h.slot c).appender hmec).of_idle (by rw [hdone c c hmec]; rfl)
    refine htally.checkClient hcount ?_
    simp [hc]
  unfold KvSrv.checkAppends
  rw [ht]
  show (if Int64.ofNat E.length + 1 ≠ _ then _ else _) = _
  rw [if_neg (not_not.mpr hver)]
  exact forM_ok hclients

/-- **No append is lost, and none is made twice.** When every client of the loop has returned, the key holds a list
    `E` with `E.length + 1` as its version. An append whose Put returned `OK` is in it once, one whose Put returned
    `ErrMaybe` at most once, and there is nothing else; each client's numbers grow; and the check, for clients
    numbered from 0, passes. -/
theorem appends_exact (hrun : Reaches (appendSys S) tr s)
    (hlate : ∀ id op r, AppendEvent.rpc (.serveLate id op r) ∉ tr)
    (hdone : ∀ c me, S.me c = some me → (s.client c).pc = .returned) :
    ∃ E ver, s.net.kv.kvStore S.key = some ⟨S.marshal E, ver⟩ ∧ ver.toNat = E.length + 1
      ∧ (∀ c me e, S.me c = some me → Returned S tr c e .OK → E.count e = 1)
      ∧ (∀ c me e, S.me c = some me → Returned S tr c e .ErrMaybe → E.count e ≤ 1)
      ∧ (∀ e ∈ E, ∃ c, S.me c = some e.id ∧ (Returned S tr c e .OK ∨ Returned S tr c e .ErrMaybe))
      ∧ (∀ me, ((E.filter (fun e => e.id = me)).map Entry.n).Pairwise (· < ·))
      ∧ (∀ nclnt, (∀ c, S.me c = if c < nclnt then some (c : Int) else none) →
          checkAppends E nclnt ((List.range nclnt).map (fun c => (s.client c).result)) ver = .ok ()) := by
  obtain ⟨E, h, hR⟩ := exists_appendOk hrun hlate
  have hshort : E.length + 1 < 2 ^ 64 := by
    have := h.short
    unfold maxLen at this
    omega
  refine ⟨E, UInt64.ofNat (E.length + 1), h.stored, UInt64.toNat_ofNat_of_lt' hshort, ?_, ?_, ?_, ?_, ?_⟩
  · intro c me e hme hok
    exact List.count_eq_one_of_mem h.nodup (hR.ok hme hok)
  · intro c me e _ _
    exact List.nodup_iff_count_le_one.mp h.nodup e
  · intro e he
    obtain ⟨c, hme⟩ := h.owned e he
    obtain ⟨hcount, _⟩ := ((h.slot c).appender hme).of_idle (by rw [hdone c _ hme]; rfl)
    -- the client has returned and is past all its entries, so it was told of each
    have hlt := hcount.behind e he rfl
    exact ⟨c, hme, hR.told hme he (by omega)⟩
  · intro me
    rw [List.pairwise_map, List.pairwise_filter]
    refine h.ordered.imp (fun hlt hid hid' => hlt ?_)
    rw [of_decide_eq_true hid, of_decide_eq_true hid']
  · intro nclnt hme
    exact h.checkAppends hme hdone

end Runs

/-! ## Two clients -/

/-- Numbers as strokes, each with a comma after it. -/
def strokes (n : Nat) : List Char := List.replicate n 'i' ++ [',']

/-- Reading them back. -/
def readStrokes : Nat → List Char → List Nat
  | n, 'i' :: cs => readStrokes (n + 1) cs
  | n, _ :: cs => n :: readStrokes 0 cs
  | _, [] => []

theorem readStrokes_strokes (m n : Nat) (cs : List Char) :
    readStrokes m (strokes n ++ cs) = (m + n) :: readStrokes 0 cs := by
  induction n generalizing m with
  | zero => rfl
  | succ n ih =>
      show readStrokes (m + 1) (strokes n ++ cs) = _
      rw [ih]
      congr 1
      omega

theorem readStrokes_flatMap (l : List Nat) : readStrokes 0 (l.flatMap strokes) = l := by
  induction l with
  | nil => rfl
  | cons n l ih => rw [List.flatMap_cons, readStrokes_strokes, ih, Nat.zero_add]

/-- An entry as four numbers, two for each sign. -/
def entryNats (e : Entry) : List Nat := [e.id.toNat, (-e.id).toNat, e.n.toNat, (-e.n).toNat]

/-- Reading an entry back, and the next. -/
def natsEntries : List Nat → List Entry
  | a :: b :: c :: d :: l => ⟨(a : Int) - b, (c : Int) - d⟩ :: natsEntries l
  | _ => []

theorem natsEntries_flatMap (es : List Entry) : natsEntries (es.flatMap entryNats) = es := by
  induction es with
  | nil => rfl
  | cons e es ih =>
      show natsEntries (_ :: _ :: _ :: _ :: es.flatMap entryNats) = _
      rw [natsEntries, ih, Int.toNat_sub_toNat_neg, Int.toNat_sub_toNat_neg]

/-- A list of entries as strokes. -/
def strokeMarshal (es : List Entry) : String := String.ofList ((es.flatMap entryNats).flatMap strokes)

/-- Clients 0 and 1. -/
def twoAppenders : AppendSetup where
  key := "k"
  marshal := strokeMarshal
  unmarshal v := some (natsEntries (readStrokes 0 v.toList))
  roundTrip es := by
    rw [strokeMarshal, String.toList_ofList, readStrokes_flatMap, natsEntries_flatMap]
  me c := if c < 2 then some c else none
  distinct := by
    intro c c' m h h'
    split at h <;> split at h' <;> simp only [Option.some.injEq, reduceCtorEq] at h h'
    exact Int.ofNat.inj (h.trans h'.symm)
  kv := makeKVServer.set "k" ⟨strokeMarshal [], 1⟩
  start := by simp

/-- Client 0's Put is applied and its reply lost; client 1 appends; the retry comes back with `ErrMaybe`. -/
def appendTrace : List AppendEvent :=
  [.iterate 0, .rpc (.invoke 0 0 (.get ⟨"k"⟩)), .rpc (.serve 0 0 (.get ⟨"k"⟩) (.get ⟨strokeMarshal [], 1, .OK⟩)),
    .rpc (.ret 0 0 (.get ⟨"k"⟩) (.get ⟨strokeMarshal [], 1, .OK⟩)),
    .rpc (.invoke 0 1 (.put ⟨"k", strokeMarshal [⟨0, 0⟩], 1⟩)),
    .rpc (.serve 0 1 (.put ⟨"k", strokeMarshal [⟨0, 0⟩], 1⟩) (.put ⟨.OK⟩)), .rpc (.lose 0),
    .iterate 1, .rpc (.invoke 1 2 (.get ⟨"k"⟩)),
    .rpc (.serve 1 2 (.get ⟨"k"⟩) (.get ⟨strokeMarshal [⟨0, 0⟩], 2, .OK⟩)),
    .rpc (.ret 1 2 (.get ⟨"k"⟩) (.get ⟨strokeMarshal [⟨0, 0⟩], 2, .OK⟩)),
    .rpc (.invoke 1 3 (.put ⟨"k", strokeMarshal [⟨0, 0⟩, ⟨1, 0⟩], 2⟩)),
    .rpc (.serve 1 3 (.put ⟨"k", strokeMarshal [⟨0, 0⟩, ⟨1, 0⟩], 2⟩) (.put ⟨.OK⟩)),
    .rpc (.ret 1 3 (.put ⟨"k", strokeMarshal [⟨0, 0⟩, ⟨1, 0⟩], 2⟩) (.put ⟨.OK⟩)), .stop 1,
    .rpc (.serve 0 1 (.put ⟨"k", strokeMarshal [⟨0, 0⟩], 1⟩) (.put ⟨.ErrVersion⟩)),
    .rpc (.ret 0 1 (.put ⟨"k", strokeMarshal [⟨0, 0⟩], 1⟩) (.put ⟨.ErrMaybe⟩)), .stop 0]

theorem appends_exact_appendTrace : ∃ s E ver, Reaches (appendSys twoAppenders) appendTrace s
    ∧ s.net.kv.kvStore "k" = some ⟨strokeMarshal E, ver⟩ ∧ ver.toNat = E.length + 1
    ∧ E.count ⟨1, 0⟩ = 1 ∧ E.count ⟨0, 0⟩ ≤ 1
    ∧ checkAppends E 2 ((List.range 2).map (fun c => (s.client c).result)) ver = .ok () := by
  have hrun : ∃ s, Reaches (appendSys twoAppenders) appendTrace s
      ∧ decide ((s.client 0).pc = .returned ∧ (s.client 1).pc = .returned) = true :=
    exists_reaches_with (appendSys_computedBy _) _ (by decide +kernel)
  obtain ⟨s, hs, hpc⟩ := hrun
  obtain ⟨hpc0, hpc1⟩ := of_decide_eq_true hpc
  have hlate : ∀ id op r, AppendEvent.rpc (.serveLate id op r) ∉ appendTrace := by
    intro id op r h
    simp [appendTrace] at h
  have hdone : ∀ c me, twoAppenders.me c = some me → (s.client c).pc = .returned := by
    intro c me hme
    have hc : c < 2 := by
      by_contra hge
      change (if c < 2 then some (c : Int) else none) = some me at hme
      rw [if_neg hge] at hme
      cases hme
    obtain rfl | rfl := (show ∀ n : Nat, n < 2 → n = 0 ∨ n = 1 by omega) c hc
    · exact hpc0
    · exact hpc1
  obtain ⟨E, ver, hstored, hver, hok, hmaybe, _, _, hcheck⟩ := appends_exact hs hlate hdone
  refine ⟨s, E, ver, hs, hstored, hver, hok 1 1 _ rfl ?_, hmaybe 0 0 _ rfl ?_, hcheck 2 (fun c => rfl)⟩
  · exact ⟨3, [⟨0, 0⟩], 2, by simp [appendTrace, twoAppenders]⟩
  · exact ⟨1, [], 1, by simp [appendTrace, twoAppenders]⟩

end KvSrv
end DistributedLabs
