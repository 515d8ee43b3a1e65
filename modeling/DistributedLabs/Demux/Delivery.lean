import DistributedLabs.Demux.Client

/-!
# `Demux.Delivery` — every call gets its own reply, or the reader's failure

`DemuxOk` is the invariant. Its core is about the call map: a call that waits for a result is in the map under its
own tag, or the reader is about to hand it its result (`listed`); and while the reader is in its first loop, every tag
that is out with the peer, on the wire or in the reader's hands is in the map (`live`). In the final loop the tags that
are left to fail are exactly those in the map, which nobody adds to any more (`left`).

From `live` it follows that a reply finds its call, so the reader does not hit the `Fatalf` of `reply`
(`DemuxOk.not_abort`). It would, if a tag came round while a call still had it: everything here is about runs in which
fewer than `2 ^ 32` tags are issued.

The steps are taken one kind at a time: a call that moves (`DemuxOk.setCaller` and what rests on it), the peer's answer,
and the reader's side of a delivery. `DemuxOk.step` has them all.

`DemuxOk` has two parameters, the number of tags issued and the answers given. The first changes only when a call takes
its tag (`DemuxOk.tag`) and the second only when the peer answers (`DemuxOk.answer`); all other steps keep both
(`DemuxOk.step_quiet`).
-/

namespace DistributedLabs
namespace Demux

open Lib

/-! ## Reading a state -/

/-- The tag a call has taken, if `put` did not refuse it. -/
def Caller.tag : Caller → Option Ttag
  | .tagged t _ | .registered t _ | .writing t | .waiting t | .returned t _ => some t
  | _ => none

/-- The tag under which a call waits for a result. -/
def Caller.awaits : Caller → Option Ttag
  | .registered t _ | .writing t | .waiting t => some t
  | _ => none

/-- The tag of a call whose write has begun. -/
def Caller.wrote : Caller → Option Ttag
  | .writing t | .waiting t | .returned t _ => some t
  | _ => none

theorem Caller.tag_of_awaits {p : Caller} {t : Ttag} (h : p.awaits = some t) : p.tag = some t := by
  cases p <;> first | exact h | cases h

theorem Caller.tag_of_wrote {p : Caller} {t : Ttag} (h : p.wrote = some t) : p.tag = some t := by
  cases p <;> first | exact h | cases h

/-- The call the reader has a result for. -/
def Reader.target : Reader → Option CallId
  | .sending c _ _ => some c
  | _ => none

/-- A reader that has a result for a call is about to send it. -/
theorem Reader.sending_of_target {r : Reader} {c : CallId} (h : r.target = some c) :
    ∃ rep rest, r = .sending c rep rest := by
  cases r with
  | sending c' rep rest =>
      cases h
      exact ⟨rep, rest, rfl⟩
  | _ => cases h

/-- The tag of the reply in the reader's hands. -/
def Reader.current : Reader → List Ttag
  | .replying t _ none => [t]
  | _ => []

theorem Reader.replying_of_current {r : Reader} {t : Ttag} (h : t ∈ r.current) :
    ∃ rep, r = .replying t rep none := by
  cases r with
  | replying t' rep rest =>
      cases rest with
      | none => exact ⟨rep, by rw [List.mem_singleton.mp h]⟩
      | some ts => cases h
  | _ => cases h

/-- Whether the reader is in its first loop. -/
def Reader.main : Reader → Bool
  | .reading | .replying _ _ none | .sending _ _ none => true
  | _ => false

/-- What the final loop still finds in the map. -/
def Reader.left : Reader → Option (List Ttag)
  | .replying t _ (some ts) => some (t :: ts)
  | .sending _ _ (some ts) => some ts
  | .failing ts => some ts
  | .finished => some []
  | _ => none

/-- The reply is the peer's answer to the tag, or in the final loop the failure. -/
def ReplyOk (answers : List (Ttag × Bytes × Bool)) (t : Ttag) (rep : Reply) : Option (List Ttag) → Prop
  | none => rep.err = none ∧ (t, rep.rep, rep.ok) ∈ answers
  | some _ => rep = readerFailure

theorem ReplyOk.mono {answers : List (Ttag × Bytes × Bool)} {t : Ttag} {rep : Reply} {rest : Option (List Ttag)}
    (h : ReplyOk answers t rep rest) (more : List (Ttag × Bytes × Bool)) :
    ReplyOk (answers ++ more) t rep rest := by
  cases rest with
  | none => exact ⟨h.1, List.mem_append_left _ h.2⟩
  | some ts => exact h

/-- The invariant: `n` tags have been issued, the one of the `InitMsg` among them, and `answers` is what the peer
    has sent. -/
structure DemuxOk (n : Nat) (answers : List (Ttag × Bytes × Bool)) (s : State) : Prop where
  nextTag : s.nextTag.toNat = n
  tagBelow : ∀ {c t}, (s.caller c).tag = some t → t.toNat < n
  tagUnique : ∀ {c c' t}, (s.caller c).tag = some t → (s.caller c').tag = some t → c = c'
  entry : ∀ {t c}, s.calls.lookup t = some c → (s.caller c).awaits = some t
  listed : ∀ {c t}, (s.caller c).awaits = some t → s.calls.lookup t = some c ∨ s.reader.target = some c
  draining : s.reader = .draining → s.closed = true
  left : ∀ {ts}, s.reader.left = some ts → s.closed = true ∧ ts.Perm s.calls.keys
  once : (s.out.map Prod.fst ++ answers.map Prod.fst).Nodup
  wrote : ∀ t ∈ s.out.map Prod.fst ++ answers.map Prod.fst, ∃ c, (s.caller c).wrote = some t
  wire : ∀ m ∈ s.wire, m ∈ answers
  unread : (s.reader.current ++ s.wire.map Prod.fst).Nodup
  live : s.reader.main = true →
    ∀ t ∈ s.out.map Prod.fst ++ (s.reader.current ++ s.wire.map Prod.fst), ∃ c, s.calls.lookup t = some c
  replying : ∀ {t rep rest}, s.reader = .replying t rep rest → ReplyOk answers t rep rest
  sending : ∀ {c rep rest}, s.reader = .sending c rep rest → ∃ t, (s.caller c).awaits = some t
    ∧ s.calls.lookup t = none ∧ (rest = none → (s.caller c).wrote = some t) ∧ ReplyOk answers t rep rest
  returned : ∀ {c t rep}, s.caller c = .returned t rep → rep = readerFailure ∨ ReplyOk answers t rep none
  running : s.reader ≠ .aborted

theorem demuxOk_init : DemuxOk 1 [] demux.init where
  nextTag := rfl
  tagBelow h := by cases h
  tagUnique h := by cases h
  entry h := by cases h
  listed h := by cases h
  draining h := by cases h
  left h := by cases h
  once := List.nodup_nil
  wrote t h := by cases h
  wire m h := by cases h
  unread := List.nodup_nil
  live _ t h := by cases h
  replying h := by cases h
  sending h := by cases h
  returned h := by cases h
  running h := by cases h

section Steps

variable {n : Nat} {answers : List (Ttag × Bytes × Bool)} {s s' : State} {c : CallId} {p : Caller} {t : Ttag}
  {b : Bytes}

theorem setCaller_self (s : State) (c : CallId) (p : Caller) : (s.setCaller c p).caller c = p :=
  Function.update_self ..

theorem setCaller_ne {c' : CallId} (h : c' ≠ c) : (s.setCaller c p).caller c' = s.caller c' :=
  Function.update_of_ne h ..

/-- What is the same for the call that moves is the same for all. -/
theorem setCaller_same {α : Type} {f : Caller → α} (h : f p = f (s.caller c)) (c' : CallId) :
    f ((s.setCaller c p).caller c') = f (s.caller c') := by
  by_cases hc : c' = c
  · subst hc
    rw [setCaller_self, h]
  · rw [setCaller_ne hc]

/-- A call moves on. Its tag, if it has one, is nobody else's, and it waits for a result as before. -/
theorem DemuxOk.setCaller (h : DemuxOk n answers s)
    (htag : ∀ {t}, p.tag = some t → t.toNat < n ∧ ∀ c' ≠ c, (s.caller c').tag ≠ some t)
    (hawaits : p.awaits = (s.caller c).awaits) (hwrote : ∀ {t}, (s.caller c).wrote = some t → p.wrote = some t)
    (hreturned : ∀ t rep, p ≠ .returned t rep) : DemuxOk n answers (s.setCaller c p) := by
  have hawait := setCaller_same hawaits
  have hwrotes : ∀ {c' t}, (s.caller c').wrote = some t → ((s.setCaller c p).caller c').wrote = some t := by
    intro c' t hw
    by_cases hc : c' = c
    · subst hc
      rw [setCaller_self]
      exact hwrote hw
    · rwa [setCaller_ne hc]
  -- a tag after the step is the moving call's or was there before
  have htags : ∀ {c' t}, ((s.setCaller c p).caller c').tag = some t →
      (c' = c ∧ p.tag = some t) ∨ (c' ≠ c ∧ (s.caller c').tag = some t) := by
    intro c' t ht
    by_cases hc : c' = c
    · subst hc
      rw [setCaller_self] at ht
      exact Or.inl ⟨rfl, ht⟩
    · rw [setCaller_ne hc] at ht
      exact Or.inr ⟨hc, ht⟩
  refine { h with
    tagBelow := fun ht => ?_
    tagUnique := fun ht ht' => ?_
    entry := fun hl => (hawait _).trans (h.entry hl)
    listed := fun ha => h.listed ((hawait _).symm.trans ha)
    wrote := fun t ht => ?_
    sending := fun hr => ?_
    returned := fun hret => ?_ }
  · rcases htags ht with ⟨rfl, hp⟩ | ⟨_, hold⟩
    · exact (htag hp).1
    · exact h.tagBelow hold
  · rcases htags ht with ⟨rfl, hp⟩ | ⟨hne, hold⟩ <;> rcases htags ht' with ⟨rfl, hp'⟩ | ⟨hne', hold'⟩
    · rfl
    · exact absurd hold' ((htag hp).2 _ hne')
    · exact absurd hold ((htag hp').2 _ hne)
    · exact h.tagUnique hold hold'
  · obtain ⟨c', hc'⟩ := h.wrote t ht
    exact ⟨c', hwrotes hc'⟩
  · obtain ⟨t, ha, hl, hw, hrep⟩ := h.sending hr
    exact ⟨t, (hawait _).trans ha, hl, fun hrest => hwrotes (hw hrest), hrep⟩
  · rcases update_cases hret with ⟨_, hp⟩ | ⟨_, hold⟩
    · exact absurd hp (hreturned _ _)
    · exact h.returned hold

/-- The condition on the tag, for a call that had it before. -/
theorem DemuxOk.own_tag (h : DemuxOk n answers s) (ht : (s.caller c).tag = some t) :
    t.toNat < n ∧ ∀ c' ≠ c, (s.caller c').tag ≠ some t :=
  ⟨h.tagBelow ht, fun _ hne ht' => hne (h.tagUnique ht' ht)⟩

/-- A call takes the next tag. -/
theorem DemuxOk.tag (h : DemuxOk n answers s) (hc : s.caller c = .called b) (hfew : n + 1 < 2 ^ 32) :
    DemuxOk (n + 1) answers { s.setCaller c (.tagged s.nextTag b) with nextTag := s.nextTag + 1 } := by
  have hnext := h.nextTag
  have hissued : DemuxOk (n + 1) answers { s with nextTag := s.nextTag + 1 } := by
    refine { h with nextTag := ?_, tagBelow := fun ht => Nat.lt_succ_of_lt (h.tagBelow ht) }
    show (s.nextTag + 1).toNat = n + 1
    rw [UInt32.toNat_add, hnext]
    exact Nat.mod_eq_of_lt hfew
  refine hissued.setCaller (fun {t} ht => ?_) ?_ (fun {t} hw => ?_) (by simp)
  · obtain rfl : s.nextTag = t := by simpa [Caller.tag] using ht
    refine ⟨by omega, fun c' _ ht' => ?_⟩
    have := h.tagBelow ht'
    omega
  · show _ = (s.caller c).awaits
    rw [hc]
    rfl
  · change (s.caller c).wrote = some t at hw
    rw [hc] at hw
    cases hw

/-- A call is entered in the map. -/
theorem DemuxOk.put (h : DemuxOk n answers s) (hc : s.caller c = .tagged t b) (hopen : s.closed = false) :
    DemuxOk n answers { s.setCaller c (.registered t b) with calls := s.calls.insert t c } := by
  have htag : ∀ c', ((s.setCaller c (.registered t b)).caller c').tag = (s.caller c').tag :=
    setCaller_same (by rw [hc]; rfl)
  have hwrote : ∀ c', ((s.setCaller c (.registered t b)).caller c').wrote = (s.caller c').wrote :=
    setCaller_same (by rw [hc]; rfl)
  have hct : (s.caller c).tag = some t := by
    rw [hc]
    rfl
  -- nobody else waits under the tag, and the call itself did not wait
  have hother : ∀ {c' t'}, (s.caller c').awaits = some t' → c' ≠ c ∧ t' ≠ t := by
    intro c' t' ha
    have hne : c' ≠ c := by
      rintro rfl
      rw [hc] at ha
      cases ha
    refine ⟨hne, ?_⟩
    rintro rfl
    exact hne (h.tagUnique (Caller.tag_of_awaits ha) hct)
  have hawaits : ∀ {c' t'}, (s.caller c').awaits = some t' →
      ((s.setCaller c (.registered t b)).caller c').awaits = some t' := by
    intro c' t' ha
    rwa [setCaller_ne (hother ha).1]
  refine { h with
    tagBelow := fun ht => h.tagBelow ((htag _).symm.trans ht)
    tagUnique := fun ht ht' => h.tagUnique ((htag _).symm.trans ht) ((htag _).symm.trans ht')
    entry := fun {t' c'} hl => ?_
    listed := fun {c' t'} ha => ?_
    left := fun hl => ?_
    wrote := fun t' ht' => ?_
    live := fun hmain t' ht' => ?_
    sending := fun hr => ?_
    returned := fun hret => ?_ }
  · dsimp only at hl
    by_cases htt : t' = t
    · subst htt
      rw [AList.lookup_insert] at hl
      cases hl
      show ((s.setCaller c (.registered t' b)).caller c).awaits = some t'
      rw [setCaller_self]
      rfl
    · rw [AList.lookup_insert_ne htt] at hl
      exact hawaits (h.entry hl)
  · dsimp only at ha ⊢
    by_cases hcc : c' = c
    · subst hcc
      change ((s.setCaller c' (.registered t b)).caller c').awaits = some t' at ha
      rw [setCaller_self] at ha
      cases ha
      exact Or.inl (AList.lookup_insert _)
    · change ((s.setCaller c (.registered t b)).caller c').awaits = some t' at ha
      rw [setCaller_ne hcc] at ha
      rw [AList.lookup_insert_ne (hother ha).2]
      exact h.listed ha
  · rw [(h.left hl).1] at hopen
    cases hopen
  · obtain ⟨c', hw⟩ := h.wrote t' ht'
    exact ⟨c', (hwrote c').trans hw⟩
  · obtain ⟨c', hl⟩ := h.live hmain t' ht'
    refine ⟨c', ?_⟩
    dsimp only
    rw [AList.lookup_insert_ne (hother (h.entry hl)).2, hl]
  · obtain ⟨t', ha, hl, hw, hrep⟩ := h.sending hr
    refine ⟨t', hawaits ha, ?_, fun hrest => (hwrote _).trans (hw hrest), hrep⟩
    dsimp only
    rw [AList.lookup_insert_ne (hother ha).2, hl]
  · rcases update_cases hret with ⟨_, hp⟩ | ⟨_, hold⟩
    · cases hp
    · exact h.returned hold

/-- A request reaches the peer. -/
theorem DemuxOk.write (h : DemuxOk n answers s) (hc : s.caller c = .registered t b) :
    DemuxOk n answers { s.setCaller c (.writing t) with out := s.out ++ [(t, b)] } := by
  have hct : (s.caller c).tag = some t := by
    rw [hc]
    rfl
  have hmoved : DemuxOk n answers (s.setCaller c (.writing t)) := by
    refine h.setCaller (fun ht => h.own_tag (ht ▸ hct)) (by rw [hc]; rfl) (fun hw => ?_) (by simp)
    rw [hc] at hw
    cases hw
  -- the tag is new to the peer, since only this call has it
  have hnew : t ∉ s.out.map Prod.fst ++ answers.map Prod.fst := by
    intro ht
    obtain ⟨c', hw⟩ := h.wrote t ht
    obtain rfl := h.tagUnique (Caller.tag_of_wrote hw) hct
    rw [hc] at hw
    cases hw
  have hout : ∀ {t' : Ttag} {l : List Ttag}, t' ∈ (s.out ++ [(t, b)]).map Prod.fst ++ l →
      t' = t ∨ t' ∈ s.out.map Prod.fst ++ l := by
    intro t' l ht'
    rw [List.map_append, List.append_assoc, List.mem_append, List.mem_append] at ht'
    rcases ht' with hold | hnew' | hold
    · exact Or.inr (List.mem_append_left _ hold)
    · exact Or.inl (List.mem_singleton.mp hnew')
    · exact Or.inr (List.mem_append_right _ hold)
  refine { hmoved with once := ?_, wrote := fun t' ht' => ?_, live := fun hmain t' ht' => ?_ }
  · dsimp only
    rw [List.map_append, List.append_assoc]
    exact (List.perm_middle.symm.nodup_iff).mp (List.nodup_cons.mpr ⟨hnew, h.once⟩)
  · rcases hout ht' with rfl | hold
    · refine ⟨c, ?_⟩
      show ((s.setCaller c (.writing t')).caller c).wrote = some t'
      rw [setCaller_self]
      rfl
    · exact hmoved.wrote t' hold
  · rcases hout ht' with rfl | hold
    · rcases h.listed (show (s.caller c).awaits = some t' by rw [hc]; rfl) with hl | htarget
      · exact ⟨c, hl⟩
      · -- the reader would have a reply for a call that has not written
        obtain ⟨rep, rest, hr⟩ := Reader.sending_of_target htarget
        obtain ⟨t', _, _, hw, _⟩ := h.sending hr
        change s.reader.main = true at hmain
        rw [hr] at hmain
        cases rest with
        | some ts => cases hmain
        | none =>
            have hwrote := hw rfl
            rw [hc] at hwrote
            cases hwrote
    · exact hmoved.live hmain t' hold

/-- What is on the wire or in the reader's hands has been answered. -/
theorem DemuxOk.answered (h : DemuxOk n answers s) (ht : t ∈ s.reader.current ++ s.wire.map Prod.fst) :
    t ∈ answers.map Prod.fst := by
  rcases List.mem_append.mp ht with hcur | hwire
  · obtain ⟨rep, hr⟩ := Reader.replying_of_current hcur
    exact List.mem_map.mpr ⟨_, (h.replying hr).2, rfl⟩
  · obtain ⟨m, hm, rfl⟩ := List.mem_map.mp hwire
    exact List.mem_map.mpr ⟨m, h.wire m hm, rfl⟩

/-- The peer answers. -/
theorem DemuxOk.answer (h : DemuxOk n answers s) (ht : t ∈ s.out.map Prod.fst) (ok : Bool) :
    DemuxOk n (answers ++ [(t, b, ok)])
      { s with out := s.out.filter (fun m => m.1 ≠ t), wire := s.wire ++ [(t, b, ok)] } := by
  have hfewer : ∀ l, ((s.out.filter (fun m => m.1 ≠ t)).map Prod.fst ++ l).Sublist (s.out.map Prod.fst ++ l) :=
    fun l => (List.filter_sublist.map Prod.fst).append_right l
  have hgone : t ∉ (s.out.filter (fun m => m.1 ≠ t)).map Prod.fst := by
    intro hmem
    obtain ⟨m, hm, rfl⟩ := List.mem_map.mp hmem
    exact absurd rfl (of_decide_eq_true (List.mem_filter.mp hm).2)
  -- the tag is out with the peer, so it has not been answered before
  have hfirst : t ∉ answers.map Prod.fst := fun hans => (List.disjoint_of_nodup_append h.once) ht hans
  refine { h with
    once := ?_
    wrote := fun t' ht' => ?_
    wire := fun m hm => ?_
    unread := ?_
    live := fun hmain t' ht' => ?_
    replying := fun hr => (h.replying hr).mono _
    sending := fun hr => ?_
    returned := fun hret => (h.returned hret).imp_right (ReplyOk.mono · _) }
  · dsimp only
    rw [List.map_append, ← List.append_assoc]
    refine (List.perm_append_singleton t _).nodup_iff.mpr (List.nodup_cons.mpr ⟨?_, ?_⟩)
    · rw [List.mem_append, not_or]
      exact ⟨hgone, hfirst⟩
    · exact h.once.sublist (hfewer _)
  · dsimp only at ht'
    rw [List.map_append, ← List.append_assoc] at ht'
    rcases List.mem_append.mp ht' with hold | hnew
    · exact h.wrote t' ((hfewer _).subset hold)
    · rw [List.mem_singleton.mp hnew]
      exact h.wrote t (List.mem_append_left _ ht)
  · rcases List.mem_append.mp hm with hold | hnew
    · exact List.mem_append_left _ (h.wire m hold)
    · exact List.mem_append_right _ hnew
  · dsimp only
    rw [List.map_append, ← List.append_assoc]
    refine (List.perm_append_singleton t _).nodup_iff.mpr (List.nodup_cons.mpr ⟨?_, h.unread⟩)
    exact fun hmem => hfirst (h.answered hmem)
  · dsimp only at ht'
    rw [List.map_append, ← List.append_assoc s.reader.current, ← List.append_assoc] at ht'
    rcases List.mem_append.mp ht' with hold | hnew
    · exact h.live hmain t' ((hfewer _).subset hold)
    · rw [List.mem_singleton.mp hnew]
      exact h.live hmain t (List.mem_append_left _ ht)
  · obtain ⟨t', ha, hl, hw, hrep⟩ := h.sending hr
    exact ⟨t', ha, hl, hw, hrep.mono _⟩

/-- The reader takes a call out of the map. -/
theorem DemuxOk.remove {rep : Reply} {rest : Option (List Ttag)} (h : DemuxOk n answers s)
    (hr : s.reader = .replying t rep rest) (hl : s.calls.lookup t = some c) :
    DemuxOk n answers { s with reader := .sending c rep rest, calls := s.calls.erase t } := by
  have hawaits := h.entry hl
  have hrep := h.replying hr
  refine { h with
    entry := fun {t' c'} hl' => ?_
    listed := fun {c' t'} ha => ?_
    draining := fun hd => by cases hd
    left := fun {ts} hleft => ?_
    unread := ?_
    live := fun hmain t' ht' => ?_
    replying := fun hr' => by cases hr'
    sending := fun hr' => ?_
    running := fun hr' => by cases hr' }
  · dsimp only at hl'
    by_cases htt : t' = t
    · rw [htt, AList.lookup_erase] at hl'
      cases hl'
    · rw [AList.lookup_erase_ne htt] at hl'
      exact h.entry hl'
  · dsimp only
    rcases h.listed ha with hl' | htarget
    · by_cases htt : t' = t
      · rw [htt, hl] at hl'
        exact Or.inr hl'
      · rw [AList.lookup_erase_ne htt]
        exact Or.inl hl'
    · rw [hr] at htarget
      cases htarget
  · cases rest with
    | none => cases hleft
    | some ts' =>
        cases hleft
        obtain ⟨hclosed, hperm⟩ := h.left (show s.reader.left = some (t :: ts) by rw [hr]; rfl)
        refine ⟨hclosed, ?_⟩
        dsimp only
        rw [AList.keys_erase]
        simpa using hperm.erase t
  · exact h.unread.sublist (List.sublist_append_right _ _)
  · -- the tag is nowhere else any more
    cases rest with
    | some ts => cases hmain
    | none =>
        have hcur : s.reader.current = [t] := by
          rw [hr]
          rfl
        have hunread := h.unread
        rw [hcur] at hunread
        have hne : t' ≠ t := by
          rintro rfl
          rcases List.mem_append.mp ht' with hout | hwire
          · exact (List.disjoint_of_nodup_append h.once) hout (List.mem_map.mpr ⟨_, hrep.2, rfl⟩)
          · exact (List.nodup_cons.mp hunread).1 hwire
        obtain ⟨c', hl'⟩ := h.live (by rw [hr]; rfl) t' (by
          rcases List.mem_append.mp ht' with hout | hwire
          · exact List.mem_append_left _ hout
          · exact List.mem_append_right _ (List.mem_append_right _ hwire))
        refine ⟨c', ?_⟩
        dsimp only
        rw [AList.lookup_erase_ne hne, hl']
  · cases hr'
    refine ⟨t, hawaits, AList.lookup_erase .., fun hrest => ?_, hrep⟩
    subst hrest
    obtain ⟨c', hw⟩ := h.wrote t (List.mem_append_right _ (List.mem_map.mpr ⟨_, hrep.2, rfl⟩))
    obtain rfl := h.tagUnique (Caller.tag_of_wrote hw) (Caller.tag_of_awaits hawaits)
    exact hw

/-- The reader hands a call its result. -/
theorem DemuxOk.deliver {rep : Reply} {rest : Option (List Ttag)} (h : DemuxOk n answers s)
    (hr : s.reader = .sending c rep rest) (hc : s.caller c = .waiting t) :
    DemuxOk n answers { s.setCaller c (.returned t rep) with reader := Reader.resume rest } := by
  have htag : ∀ c', ((s.setCaller c (.returned t rep)).caller c').tag = (s.caller c').tag :=
    setCaller_same (by rw [hc]; rfl)
  have hwrote : ∀ c', ((s.setCaller c (.returned t rep)).caller c').wrote = (s.caller c').wrote :=
    setCaller_same (by rw [hc]; rfl)
  -- the call waits under the tag the reader has in hand, which is out of the map already
  obtain ⟨t₀, ha₀, hl₀, _, hrep⟩ := h.sending hr
  obtain rfl : t = t₀ := by
    rw [hc] at ha₀
    exact Option.some.inj ha₀
  -- the reader goes back to where it was: nothing it holds changes but the result
  have hleft : (Reader.resume rest).left = s.reader.left := by
    rw [hr]
    cases rest <;> rfl
  have hcurrent : (Reader.resume rest).current = s.reader.current := by
    rw [hr]
    cases rest <;> rfl
  have hmain : (Reader.resume rest).main = s.reader.main := by
    rw [hr]
    cases rest <;> rfl
  refine { h with
    tagBelow := fun ht => h.tagBelow ((htag _).symm.trans ht)
    tagUnique := fun ht ht' => h.tagUnique ((htag _).symm.trans ht) ((htag _).symm.trans ht')
    entry := fun {t' c'} hl => ?_
    listed := fun {c' t'} ha => ?_
    draining := fun hd => ?_
    left := fun hl => h.left (hleft.symm.trans hl)
    wrote := fun t' ht' => ?_
    unread := ?_
    live := fun hm t' ht' => ?_
    replying := fun hr' => ?_
    sending := fun hr' => ?_
    returned := fun hret => ?_
    running := fun hr' => ?_ }
  · change s.calls.lookup t' = some c' at hl
    -- the call that gets its result is in no entry: its tag has been taken out
    have hne : c' ≠ c := by
      rintro rfl
      have ha := h.entry hl
      rw [hc] at ha
      obtain rfl : t = t' := Option.some.inj ha
      rw [hl₀] at hl
      cases hl
    show ((s.setCaller c (.returned t rep)).caller c').awaits = some t'
    rw [setCaller_ne hne]
    exact h.entry hl
  · change ((s.setCaller c (.returned t rep)).caller c').awaits = some t' at ha
    have hne : c' ≠ c := by
      rintro rfl
      rw [setCaller_self] at ha
      cases ha
    rw [setCaller_ne hne] at ha
    refine (h.listed ha).imp_right (fun htarget => ?_)
    rw [hr] at htarget
    exact absurd (Option.some.inj htarget).symm hne
  · cases rest <;> cases hd
  · obtain ⟨c', hw⟩ := h.wrote t' ht'
    exact ⟨c', (hwrote c').trans hw⟩
  · dsimp only
    rw [hcurrent]
    exact h.unread
  · dsimp only at hm ht'
    rw [hcurrent] at ht'
    rw [hmain] at hm
    exact h.live hm t' ht'
  · cases rest <;> cases hr'
  · cases rest <;> cases hr'
  · rcases update_cases hret with ⟨_, hp⟩ | ⟨_, hold⟩
    · cases hp
      cases rest with
      | none => exact Or.inr hrep
      | some ts => exact Or.inl hrep
    · exact h.returned hold
  · cases rest <;> cases hr'

/-- The tags an event issues. -/
def Event.issues : Event → Nat
  | .tag _ _ => 1
  | _ => 0

/-- The answer an event is. -/
def Event.answer? : Event → Option (Ttag × Bytes × Bool)
  | .answer t b ok => some (t, b, ok)
  | _ => none

/-- The reader goes on outside its first loop, with nothing to hand over before or after. -/
theorem DemuxOk.setReader {r : Reader} {closed : Bool} (h : DemuxOk n answers s) (hfrom : s.reader.target = none)
    (hto : r.target = none) (hmain : r.main = false) (hcurrent : r.current = [])
    (hdraining : r = .draining → closed = true)
    (hleft : ∀ {ts}, r.left = some ts → closed = true ∧ ts.Perm s.calls.keys)
    (hreplying : ∀ {t rep rest}, r = .replying t rep rest → ReplyOk answers t rep rest)
    (hrunning : r ≠ .aborted) : DemuxOk n answers { s with reader := r, closed := closed } := by
  refine { h with
    listed := fun ha => (h.listed ha).imp_right (fun ht => ?_)
    draining := hdraining
    left := hleft
    unread := ?_
    live := fun hm => ?_
    replying := hreplying
    sending := fun hr => ?_
    running := hrunning }
  · rw [hfrom] at ht
    cases ht
  · dsimp only
    rw [hcurrent]
    exact h.unread.sublist (List.sublist_append_right _ _)
  · dsimp only at hm
    rw [hmain] at hm
    cases hm
  · dsimp only at hr
    rw [hr] at hto
    cases hto

/-- A reply finds its call in the map, so the reader does not abort. -/
theorem DemuxOk.not_abort {rep : Reply} {rest : Option (List Ttag)} (h : DemuxOk n answers s)
    (hr : s.reader = .replying t rep rest) : s.calls.lookup t ≠ none := by
  intro hnone
  cases rest with
  | none =>
      have hcur : t ∈ s.reader.current := by
        rw [hr]
        exact List.mem_singleton_self t
      obtain ⟨c, hl⟩ := h.live (by rw [hr]; rfl) t (List.mem_append_right _ (List.mem_append_left _ hcur))
      rw [hnone] at hl
      cases hl
  | some ts =>
      obtain ⟨_, hperm⟩ := h.left (show s.reader.left = some (t :: ts) by rw [hr]; rfl)
      have hkey : t ∈ s.calls.keys := hperm.mem_iff.mp List.mem_cons_self
      exact AList.lookup_eq_none.mp hnone (AList.mem_keys.mpr hkey)

/-- Steps that issue no tag and are no answer. -/
theorem DemuxOk.step_quiet {e : Event} (h : DemuxOk n answers s) (hs : Step s e s') (hissues : e.issues = 0)
    (hanswer : e.answer? = none) : DemuxOk n answers s' := by
  cases hs with
  | call hc =>
      exact h.setCaller (fun ht => by cases ht) (by rw [hc]; rfl) (fun hw => by rw [hc] at hw; cases hw) (by simp)
  | tag hc => cases hissues
  | put hc hopen => exact h.put hc hopen
  | refuse hc _ =>
      exact h.setCaller (fun ht => by cases ht) (by rw [hc]; rfl) (fun hw => by rw [hc] at hw; cases hw) (by simp)
  | write hc => exact h.write hc
  | writeFails hc =>
      exact h.setCaller (fun ht => h.own_tag (ht ▸ (by rw [hc]; rfl))) (by rw [hc]; rfl)
        (fun hw => by rw [hc] at hw; cases hw) (by simp)
  | written hc =>
      exact h.setCaller (fun ht => h.own_tag (ht ▸ (by rw [hc]; rfl))) (by rw [hc]; rfl)
        (fun hw => by rw [hc] at hw; exact hw) (by simp)
  | answer _ => cases hanswer
  -- the tag goes from the wire into the reader's hands, so what is live stays the same
  | @read t b ok wire hr hwire =>
      have hunread := h.unread
      have hlive := h.live (by rw [hr]; rfl)
      rw [hr, hwire] at hunread hlive
      refine { h with
        listed := fun ha => (h.listed ha).imp_right (fun ht => by rw [hr] at ht; cases ht)
        draining := fun hd => by cases hd
        left := fun hl => by cases hl
        wire := fun m hm => h.wire m (by rw [hwire]; exact List.mem_cons_of_mem _ hm)
        unread := hunread
        live := fun _ => hlive
        replying := fun hr' => ?_
        sending := fun hr' => by cases hr'
        running := fun hr' => by cases hr' }
      cases hr'
      exact ⟨rfl, h.wire _ (by rw [hwire]; exact List.mem_cons_self)⟩
  | readFails hr =>
      exact h.setReader (by rw [hr]; rfl) rfl rfl rfl (fun hd => by cases hd) (fun hl => by cases hl)
        (fun hr' => by cases hr') (fun hr' => by cases hr')
  | closeMap hr =>
      exact h.setReader (by rw [hr]; rfl) rfl rfl rfl (fun _ => rfl) (fun hl => by cases hl)
        (fun hr' => by cases hr') (fun hr' => by cases hr')
  -- the map is closed by now: what is left to fail are its keys, in the order of the range
  | outstanding hr hperm =>
      refine h.setReader (by rw [hr]; rfl) rfl rfl rfl (fun hd => by cases hd) (fun hl => ?_)
        (fun hr' => by cases hr') (fun hr' => by cases hr')
      cases hl
      exact ⟨h.draining hr, hperm⟩
  | fail hr =>
      refine h.setReader (by rw [hr]; rfl) rfl rfl rfl (fun hd => by cases hd) (fun hl => ?_)
        (fun hr' => ?_) (fun hr' => by cases hr')
      · cases hl
        exact h.left (by rw [hr]; rfl)
      · cases hr'
        exact rfl
  | finish hr =>
      refine h.setReader (by rw [hr]; rfl) rfl rfl rfl (fun hd => by cases hd) (fun hl => ?_)
        (fun hr' => by cases hr') (fun hr' => by cases hr')
      cases hl
      exact h.left (by rw [hr]; rfl)
  | remove hr hl => exact h.remove hr hl
  | abort hr hnone => exact absurd hnone (h.not_abort hr)
  | deliver hr hc => exact h.deliver hr hc
  | close => exact { h with draining := fun _ => rfl, left := fun hl => ⟨rfl, (h.left hl).2⟩ }

/-- **Every step keeps the invariant**, as long as the tags do not come round. -/
theorem DemuxOk.step {e : Event} (h : DemuxOk n answers s) (hs : Step s e s') (hfew : n + e.issues < 2 ^ 32) :
    DemuxOk (n + e.issues) (answers ++ e.answer?.toList) s' := by
  cases e with
  | tag c t =>
      rw [show (Event.tag c t).answer?.toList = [] from rfl, List.append_nil]
      cases hs with
      | tag hc => exact h.tag hc hfew
  | answer t b ok =>
      cases hs with
      | answer ht => exact h.answer ht ok
  | _ =>
      have hkeep := h.step_quiet hs rfl rfl
      rwa [← List.append_nil answers] at hkeep

end Steps

end Demux
end DistributedLabs
