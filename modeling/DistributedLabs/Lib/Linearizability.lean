import Mathlib.Data.List.Nodup

/-!
# `Lib.Linearizability` — concurrent histories against a sequential specification

A history is the list of calls and returns of a concurrent object, in the order they happened. It is
linearizable when its calls can be put in one sequence that the sequential specification allows, that
contains every completed call with an acceptable result, and that never contradicts real time: a call that
returned before another began comes first. Pending calls may be left out or included with any result.

The proof rule is a linearization kept beside the running system and moved along with it:

* `Linearization.invoke` / `Linearization.respond` — the history grows by a call or by a return that the
  linearization explains;
* `Linearization.commit` — a pending call takes effect now;
* `Linearization.retract` — an effect nobody has been told of, and that changed nothing, is taken back. This
  is what a retry needs: which of several executions of a call is the one that counts is known only once a
  reply gets through.

Results may be explained loosely: `explains r r'` says that a caller told `r` may be a caller to whom the
specification said `r'`.
-/

namespace DistributedLabs
namespace Lib

/-- A sequential specification: a start state and what each operation does and returns. -/
structure SeqSpec (σ ι ρ : Type) where
  init : σ
  apply : σ → ι → σ × ρ

/-- Calls and returns, by call number. -/
inductive HEvent (ι ρ : Type) where
  | inv (id : Nat) (op : ι)
  | res (id : Nat) (r : ρ)

/-- A call placed in a sequential order, with the result it gets there. -/
structure LinOp (ι ρ : Type) where
  id : Nat
  op : ι
  ret : ρ

section Defs

variable {σ ι ρ : Type}

/-- The state after a sequence of operations. -/
def SeqSpec.after (S : SeqSpec σ ι ρ) (s : σ) (L : List (LinOp ι ρ)) : σ :=
  L.foldl (fun s o => (S.apply s o.op).1) s

/-- Each operation of a sequence returns what the specification says. -/
def SeqSpec.Legal (S : SeqSpec σ ι ρ) : σ → List (LinOp ι ρ) → Prop
  | _, [] => True
  | s, o :: rest => (S.apply s o.op).2 = o.ret ∧ S.Legal (S.apply s o.op).1 rest

/-- Call `a` returned before call `b` began. -/
def Precedes (h : List (HEvent ι ρ)) (a b : Nat) : Prop :=
  ∃ h₁ h₂, h = h₁ ++ h₂ ∧ (∃ r, HEvent.res a r ∈ h₁) ∧ ∃ op, HEvent.inv b op ∈ h₂

/-- A sequential order that explains a history. -/
structure Linearization (S : SeqSpec σ ι ρ) (explains : ρ → ρ → Prop) (h : List (HEvent ι ρ))
    (L : List (LinOp ι ρ)) : Prop where
  nodup : (L.map LinOp.id).Nodup
  legal : S.Legal S.init L
  invoked : ∀ {o}, o ∈ L → .inv o.id o.op ∈ h
  complete : ∀ {id r}, .res id r ∈ h → ∃ o ∈ L, o.id = id ∧ explains r o.ret
  order : ∀ {a b}, a ∈ L → b ∈ L → Precedes h a.id b.id → [a, b].Sublist L

/-- There is an order that explains the history. -/
def Linearizable (S : SeqSpec σ ι ρ) (explains : ρ → ρ → Prop) (h : List (HEvent ι ρ)) : Prop :=
  ∃ L, Linearization S explains h L

end Defs

section Rules

variable {σ ι ρ : Type} {S : SeqSpec σ ι ρ} {explains : ρ → ρ → Prop} {h : List (HEvent ι ρ)}
  {L : List (LinOp ι ρ)}

@[simp] theorem after_append (s : σ) (L L' : List (LinOp ι ρ)) :
    S.after s (L ++ L') = S.after (S.after s L) L' := List.foldl_append

@[simp] theorem after_cons (s : σ) (o : LinOp ι ρ) (L : List (LinOp ι ρ)) :
    S.after s (o :: L) = S.after (S.apply s o.op).1 L := rfl

@[simp] theorem after_nil (s : σ) : S.after s [] = s := rfl

theorem legal_append {s : σ} {L L' : List (LinOp ι ρ)} :
    S.Legal s (L ++ L') ↔ S.Legal s L ∧ S.Legal (S.after s L) L' := by
  induction L generalizing s with
  | nil => simp [SeqSpec.Legal]
  | cons o rest ih =>
      rw [List.cons_append, SeqSpec.Legal, SeqSpec.Legal, ih, after_cons, and_assoc]

/-- In a sequence of distinct calls a number names one entry. -/
theorem eq_of_id {L : List (LinOp ι ρ)} (hnd : (L.map LinOp.id).Nodup) {a b : LinOp ι ρ} (ha : a ∈ L)
    (hb : b ∈ L) (hid : a.id = b.id) : a = b :=
  List.inj_on_of_nodup_map hnd ha hb hid

theorem Linearization.empty : Linearization S explains [] [] :=
  { nodup := by simp
    legal := trivial
    invoked := fun h => by simp at h
    complete := fun h => by simp at h
    order := fun h => by simp at h }

/-- A new event at the end of a history creates an order between old calls only if it is an invocation. -/
theorem Precedes.of_snoc {e : HEvent ι ρ} {a b : Nat} (hp : Precedes (h ++ [e]) a b) :
    Precedes h a b ∨ ∃ op, e = .inv b op := by
  obtain ⟨h₁, h₂, hsplit, ⟨r, hr⟩, op, hop⟩ := hp
  rcases List.eq_nil_or_concat h₂ with rfl | ⟨h₂', x, rfl⟩
  · simp at hop
  · rw [List.concat_eq_append, ← List.append_assoc] at hsplit
    obtain ⟨rfl, hx⟩ := List.append_inj' hsplit rfl
    obtain rfl : e = x := by simpa using hx
    rw [List.concat_eq_append, List.mem_append] at hop
    rcases hop with hop | hop
    · exact Or.inl ⟨h₁, h₂', rfl, ⟨r, hr⟩, op, hop⟩
    · exact Or.inr ⟨op, (List.mem_singleton.mp hop).symm⟩

/-- A call begins. -/
theorem Linearization.invoke (hL : Linearization S explains h L) {id : Nat} {op : ι}
    (hfresh : ∀ op', HEvent.inv id op' ∉ h) : Linearization S explains (h ++ [.inv id op]) L := by
  refine ⟨hL.nodup, hL.legal, fun ho => List.mem_append_left _ (hL.invoked ho), ?_, ?_⟩
  · intro id' r hr
    have hr' : HEvent.res id' r ∈ h := by simpa using hr
    exact hL.complete hr'
  · intro a b ha hb hp
    rcases hp.of_snoc with hold | ⟨op', he⟩
    · exact hL.order ha hb hold
    · -- `b` was invoked before, so it is not the new call
      obtain ⟨rfl, -⟩ := HEvent.inv.inj he
      exact absurd (hL.invoked hb) (hfresh b.op)

/-- A call returns what the linearization can explain. -/
theorem Linearization.respond (hL : Linearization S explains h L) {id : Nat} {r : ρ}
    (hex : ∃ o ∈ L, o.id = id ∧ explains r o.ret) :
    Linearization S explains (h ++ [.res id r]) L := by
  refine ⟨hL.nodup, hL.legal, fun ho => List.mem_append_left _ (hL.invoked ho), ?_, ?_⟩
  · intro id' r' hr
    rcases List.mem_append.mp hr with hold | hnew
    · exact hL.complete hold
    · obtain ⟨rfl, rfl⟩ := HEvent.res.inj (List.mem_singleton.mp hnew)
      exact hex
  · intro a b ha hb hp
    rcases hp.of_snoc with hold | ⟨op', he⟩
    · exact hL.order ha hb hold
    · cases he

/-- A pending call takes effect now, after everything that took effect before. -/
theorem Linearization.commit (hL : Linearization S explains h L) {id : Nat} {op : ι}
    (hinv : .inv id op ∈ h) (hnew : ∀ o ∈ L, o.id ≠ id) :
    Linearization S explains h (L ++ [⟨id, op, (S.apply (S.after S.init L) op).2⟩]) := by
  refine ⟨?_, ?_, ?_, ?_, ?_⟩
  · rw [List.map_append, List.nodup_append]
    refine ⟨hL.nodup, by simp, ?_⟩
    intro x hx y hy
    obtain ⟨o, ho, rfl⟩ := List.mem_map.mp hx
    have hy' : y = id := by simpa using hy
    rw [hy']
    exact hnew o ho
  · rw [legal_append]
    exact ⟨hL.legal, rfl, trivial⟩
  · intro o ho
    rcases List.mem_append.mp ho with ho | ho
    · exact hL.invoked ho
    · rw [List.mem_singleton.mp ho]
      exact hinv
  · intro id' r hr
    obtain ⟨o, ho, hrest⟩ := hL.complete hr
    exact ⟨o, List.mem_append_left _ ho, hrest⟩
  · intro a b ha hb hp
    have hret : ∃ r, HEvent.res a.id r ∈ h := by
      obtain ⟨h₁, h₂, rfl, ⟨r, hr⟩, _⟩ := hp
      exact ⟨r, List.mem_append_left _ hr⟩
    have haL : a ∈ L := by
      rcases List.mem_append.mp ha with ha | ha
      · exact ha
      · -- a call that has returned is in the order already
        obtain ⟨r, hr⟩ := hret
        obtain ⟨o, ho, hid, _⟩ := hL.complete hr
        rw [List.mem_singleton.mp ha] at hid
        exact absurd hid (hnew o ho)
    rcases List.mem_append.mp hb with hb | hb
    · exact (hL.order haL hb hp).trans (List.sublist_append_left L _)
    · rw [List.mem_singleton.mp hb]
      exact List.Sublist.append (List.singleton_sublist.mpr haL) (List.Sublist.refl _)

/-- An effect that changed nothing and that no return has reported is taken back. -/
theorem Linearization.retract {l₁ l₂ : List (LinOp ι ρ)} {o : LinOp ι ρ}
    (hL : Linearization S explains h (l₁ ++ o :: l₂))
    (hidle : (S.apply (S.after S.init l₁) o.op).1 = S.after S.init l₁)
    (hpend : ∀ r, HEvent.res o.id r ∉ h) : Linearization S explains h (l₁ ++ l₂) := by
  have hsub : (l₁ ++ l₂).Sublist (l₁ ++ o :: l₂) :=
    List.Sublist.append (List.Sublist.refl _) (List.sublist_cons_self o l₂)
  have hne : ∀ x ∈ l₁ ++ l₂, x.id ≠ o.id := by
    have hnd := hL.nodup
    rw [List.map_append, List.map_cons, List.nodup_middle, List.nodup_cons, ← List.map_append] at hnd
    intro x hx heq
    exact hnd.1 (heq ▸ List.mem_map_of_mem hx)
  refine ⟨hL.nodup.sublist (hsub.map _), ?_, fun hx => hL.invoked (hsub.subset hx), ?_, ?_⟩
  · have hleg := hL.legal
    rw [legal_append, SeqSpec.Legal, hidle] at hleg
    rw [legal_append]
    exact ⟨hleg.1, hleg.2.2⟩
  · intro id r hr
    obtain ⟨x, hx, hid, hex⟩ := hL.complete hr
    have hxo : x ≠ o := by
      rintro rfl
      rw [← hid] at hr
      exact hpend r hr
    refine ⟨x, ?_, hid, hex⟩
    rcases List.mem_append.mp hx with hx | hx
    · exact List.mem_append_left _ hx
    · exact List.mem_append_right _ ((List.mem_cons.mp hx).resolve_left hxo)
  · intro a b ha hb hp
    -- both survive the removal of `o`, so their order does
    have hab := (hL.order (hsub.subset ha) (hsub.subset hb) hp).filter (fun x => decide (x.id ≠ o.id))
    have hkeep : ∀ l : List (LinOp ι ρ), (∀ x ∈ l, x.id ≠ o.id) →
        l.filter (fun x => decide (x.id ≠ o.id)) = l := by
      intro l hl
      rw [List.filter_eq_self]
      intro x hx
      simpa using hl x hx
    have h₁ := hkeep l₁ (fun x hx => hne x (List.mem_append_left _ hx))
    have h₂ := hkeep l₂ (fun x hx => hne x (List.mem_append_right _ hx))
    have hpair := hkeep [a, b] (by simp [hne a ha, hne b hb])
    have hrest : (l₁ ++ o :: l₂).filter (fun x => decide (x.id ≠ o.id)) = l₁ ++ l₂ := by
      rw [List.filter_append, h₁, List.filter_cons_of_neg (by simp), h₂]
    rw [hpair, hrest] at hab
    exact hab

/-- Real-time order, read off a split of the sequence: what returned before `b` began stands before `b`. -/
theorem Linearization.mem_before {l₁ l₂ : List (LinOp ι ρ)} {a b : LinOp ι ρ}
    (hL : Linearization S explains h (l₁ ++ b :: l₂)) (ha : a ∈ l₁ ++ b :: l₂)
    (hp : Precedes h a.id b.id) : a ∈ l₁ := by
  have hb : b ∉ l₂ := by
    have hnd := List.Nodup.of_map _ hL.nodup
    exact (List.nodup_cons.mp (List.nodup_append.mp hnd).2.1).1
  obtain ⟨s₁, s₂, hsplit, hs₁, hs₂⟩ := List.sublist_append_iff.mp (hL.order ha (by simp) hp)
  cases s₁ with
  | nil =>
      -- then both would stand from `b` on, and `b` a second time
      rw [List.nil_append] at hsplit
      subst hsplit
      have htail : [b].Sublist l₂ := hs₂.tail
      exact absurd (List.singleton_sublist.mp htail) hb
  | cons x rest =>
      obtain ⟨rfl, -⟩ := List.cons.inj hsplit
      exact hs₁.subset (List.mem_cons_self ..)

theorem Precedes.mono {h' : List (HEvent ι ρ)} {a b : Nat} (hp : Precedes h a b) : Precedes (h ++ h') a b := by
  obtain ⟨h₁, h₂, rfl, hres, op, hop⟩ := hp
  exact ⟨h₁, h₂ ++ h', List.append_assoc .., hres, op, List.mem_append_left _ hop⟩

end Rules

/-! ## Sorting a log

A checker is given the completed calls as a log of entries, in whatever order they were written down. -/

section Log

variable {σ ι ρ τ : Type} {S : SeqSpec σ ι ρ} {explains : ρ → ρ → Prop} {h : List (HEvent ι ρ)}
  {L : List (LinOp ι ρ)} {log : List τ} (idOf : τ → Nat)

/-- The entry of a call. -/
def entryFor (log : List τ) (o : LinOp ι ρ) : Option τ := log.find? (fun x => idOf x = o.id)

/-- The entries of a log in the order of a sequence of calls. -/
def inOrder (log : List τ) (L : List (LinOp ι ρ)) : List τ := L.filterMap (entryFor idOf log)

variable {idOf}

theorem entryFor_some {o : LinOp ι ρ} {x : τ} (hx : entryFor idOf log o = some x) : x ∈ log ∧ idOf x = o.id := by
  unfold entryFor at hx
  have hid := List.find?_some hx
  exact ⟨List.mem_of_find?_eq_some hx, of_decide_eq_true hid⟩

theorem entryFor_eq (hlog : (log.map idOf).Nodup) {o : LinOp ι ρ} {x : τ} (hx : x ∈ log) (hid : idOf x = o.id) :
    entryFor idOf log o = some x := by
  cases hfind : entryFor idOf log o with
  | none =>
      have hno := List.find?_eq_none.mp hfind x hx
      exact absurd (decide_eq_true hid) hno
  | some y =>
      obtain ⟨hy, hyid⟩ := entryFor_some hfind
      rw [List.inj_on_of_nodup_map hlog hy hx (hyid.trans hid.symm)]

/-- Sorting a log loses nothing, if every entry is of a call of the sequence. -/
theorem inOrder_perm (hL : (L.map LinOp.id).Nodup) (hlog : (log.map idOf).Nodup)
    (hcovered : ∀ x ∈ log, ∃ o ∈ L, o.id = idOf x) : (inOrder idOf log L).Perm log := by
  have hnodup : (inOrder idOf log L).Nodup := by
    refine List.pairwise_filterMap.mpr ?_
    refine (List.pairwise_map.mp hL).imp ?_
    rintro o o' hne x hx y hy rfl
    exact hne ((entryFor_some hx).2.symm.trans (entryFor_some hy).2)
  refine (List.perm_ext_iff_of_nodup hnodup (List.Nodup.of_map _ hlog)).mpr (fun x => ?_)
  rw [inOrder, List.mem_filterMap]
  constructor
  · rintro ⟨o, _, hx⟩
    exact (entryFor_some hx).1
  · intro hx
    obtain ⟨o, ho, hid⟩ := hcovered x hx
    exact ⟨o, ho, entryFor_eq hlog hx hid.symm⟩

/-- The order of a linearization does not contradict what the log itself knows of real time. -/
theorem Linearization.inOrder_pairwise (hL : Linearization S explains h L) {before : τ → τ → Prop}
    (hbefore : ∀ x ∈ log, ∀ y ∈ log, before y x → Precedes h (idOf y) (idOf x)) :
    (inOrder idOf log L).Pairwise (fun x y => ¬ before y x) := by
  refine List.pairwise_filterMap.mpr (List.pairwise_iff_forall_sublist.mpr ?_)
  intro o o' hsub x hx y hy hyx
  obtain ⟨hxlog, hxid⟩ := entryFor_some hx
  obtain ⟨hylog, hyid⟩ := entryFor_some hy
  have hp : Precedes h o'.id o.id := hyid ▸ hxid ▸ hbefore x hxlog y hylog hyx
  -- `o'` stands behind `o` in the sequence, and should stand before it
  obtain ⟨r₁, r₂, rfl, ho, ho'⟩ := List.cons_sublist_iff.mp hsub
  obtain ⟨l₁, l₂, rfl⟩ := List.append_of_mem ho
  have hmem : o' ∈ r₂ := List.singleton_sublist.mp ho'
  rw [List.append_assoc, List.cons_append] at hL
  have hfirst := hL.mem_before (List.mem_append_right _ (List.mem_cons_of_mem _ (List.mem_append_right _ hmem))) hp
  have hnd := List.Nodup.of_map _ hL.nodup
  refine (List.nodup_append.mp hnd).2.2 o' hfirst o' ?_ rfl
  exact List.mem_cons_of_mem _ (List.mem_append_right _ hmem)

end Log

end Lib
end DistributedLabs
