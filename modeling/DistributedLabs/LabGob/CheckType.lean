import DistributedLabs.Lib.Search
import Mathlib.Algebra.BigOperators.Group.Finset.Basic
import Mathlib.Data.Fintype.Card

/-!
# `LabGob.CheckType` — the check for lower-case fields

`labgob/labgob.go`: before a value is encoded or decoded, `checkType` goes through its type and the types that
occur in it, and counts the fields that `gob` would leave out because their names do not start with an upper-case
letter. Types may be recursive, so it remembers what it has checked, and does so across calls.

`α` are the types, with what `reflect` says of them (`Shape`), and `isUpper` is `unicode.IsUpper`. The recursion has
a bound on its depth. The warning it prints is left out; the counter is `errorCount`.

Without its counter the check is a depth-first search over the types, with what has been checked as the marks
(`checkType_visit`, `checkTypes_visitAll`), so the search of `Lib.Search` says which types it gets to and that it
returns. The counter goes along: every type that is added to the marks adds its own lower-case fields (`Counted`). In
`checkTypes_exact` the two are put together over any number of calls.
-/

namespace DistributedLabs
namespace LabGob

open Lib

/-! ## The code -/

/-- A field of a struct: its name and its type. -/
structure Field (α : Type) where
  name : String
  type : α
deriving DecidableEq, Repr

/-- What `Kind`, `Field`, `Elem` and `Key` say of a type. -/
inductive Shape (α : Type) where
  | struct (fields : List (Field α))
  | slice (elem : α)
  | array (elem : α)
  | ptr (elem : α)
  | map (elem key : α)
  | other
deriving DecidableEq, Repr

/-- The types that have been checked, and the number of lower-case fields so far. -/
structure State (α : Type) where
  checked : List α
  errorCount : Nat
deriving DecidableEq, Repr

/-- `utf8.DecodeRuneInString`: the first rune, or `RuneError` for the empty string. -/
def decodeRune (s : String) : Char := s.toList.headD '\uFFFD'

section Code

variable {α : Type} (isUpper : Char → Bool)

/-- Whether the name of the field starts with something that is no upper-case letter. -/
def Field.lower (f : Field α) : Bool := isUpper (decodeRune f.name) = false

/-- What `checkType` does for a field before it goes on to the field's type. -/
def State.checkField (st : State α) (f : Field α) : State α :=
  if f.lower isUpper then { st with errorCount := st.errorCount + 1 } else st

variable [DecidableEq α] (kind : α → Shape α)

/-- At most `fuel` deep. -/
def checkType : Nat → State α → α → Option (State α)
  | 0, _, _ => none
  | fuel + 1, st, t =>
      if t ∈ st.checked then some st
      else
        let st := { st with checked := t :: st.checked }
        match kind t with
        | .struct fields => fields.foldlM (fun st f => checkType fuel (st.checkField isUpper f) f.type) st
        | .slice elem => checkType fuel st elem
        | .array elem => checkType fuel st elem
        | .ptr elem => checkType fuel st elem
        | .map elem key => (checkType fuel st elem).bind (fun st => checkType fuel st key)
        | .other => some st

/-- One call after the other. -/
def checkTypes (fuel : Nat) (ts : List α) (st : State α) : Option (State α) :=
  ts.foldlM (checkType isUpper kind fuel) st

end Code

/-! ## What occurs in a type -/

section Parts

variable {α : Type}

/-- One type is used to make the other. -/
inductive Part (kind : α → Shape α) (t : α) : α → Prop where
  | field {fields f} : kind t = .struct fields → f ∈ fields → Part kind t f.type
  | slice {elem} : kind t = .slice elem → Part kind t elem
  | array {elem} : kind t = .array elem → Part kind t elem
  | ptr {elem} : kind t = .ptr elem → Part kind t elem
  | elem {elem key} : kind t = .map elem key → Part kind t elem
  | key {elem key} : kind t = .map elem key → Part kind t key

/-- The types `checkType` goes on to, in its order. -/
def Shape.parts : Shape α → List α
  | .struct fields => fields.map Field.type
  | .slice elem => [elem]
  | .array elem => [elem]
  | .ptr elem => [elem]
  | .map elem key => [elem, key]
  | .other => []

/-- The number of lower-case fields. -/
def Shape.lowerFields (isUpper : Char → Bool) : Shape α → Nat
  | .struct fields => fields.countP (Field.lower isUpper)
  | _ => 0

variable {kind : α → Shape α} {isUpper : Char → Bool}

/-- The types that `checkType` goes on to are those that are used. -/
theorem mem_parts_iff {t u : α} : u ∈ (kind t).parts ↔ Part kind t u := by
  constructor
  · intro h
    cases hkind : kind t with
    | struct fields =>
        rw [hkind] at h
        obtain ⟨f, hf, rfl⟩ := List.mem_map.mp h
        exact .field hkind hf
    | slice elem =>
        rw [hkind] at h
        exact List.mem_singleton.mp h ▸ .slice hkind
    | array elem =>
        rw [hkind] at h
        exact List.mem_singleton.mp h ▸ .array hkind
    | ptr elem =>
        rw [hkind] at h
        exact List.mem_singleton.mp h ▸ .ptr hkind
    | map elem key =>
        rw [hkind] at h
        rcases List.mem_cons.mp h with rfl | h
        · exact .elem hkind
        · exact List.mem_singleton.mp h ▸ .key hkind
    | other =>
        rw [hkind] at h
        cases h
  · intro h
    cases h with
    | field hkind hf =>
        rw [hkind]
        exact List.mem_map_of_mem hf
    | slice hkind | array hkind | ptr hkind | elem hkind | key hkind =>
        rw [hkind]
        simp [Shape.parts]

theorem leads_parts_iff {t u : α} :
    Leads (fun t => (kind t).parts) t u ↔ Relation.ReflTransGen (Part kind) t u := by
  unfold Leads
  rw [show (fun x y => y ∈ (kind x).parts) = Part kind from funext fun _ => funext fun _ => propext mem_parts_iff]

end Parts

/-! ## The check is a search -/

section Check

variable {α : Type} {isUpper : Char → Bool} {kind : α → Shape α}

theorem checkField_checked (st : State α) (f : Field α) : (st.checkField isUpper f).checked = st.checked := by
  unfold State.checkField
  split <;> rfl

theorem checkField_errorCount (st : State α) (f : Field α) :
    (st.checkField isUpper f).errorCount = st.errorCount + (if f.lower isUpper then 1 else 0) := by
  unfold State.checkField
  split <;> rfl

variable [DecidableEq α]

variable (isUpper kind) in
/-- Apart from the counter. -/
theorem checkType_visit (fuel : Nat) (st : State α) (t : α) :
    (checkType isUpper kind fuel st t).map State.checked = visit (fun t => (kind t).parts) fuel t st.checked := by
  induction fuel generalizing st t with
  | zero => rfl
  | succ fuel ih =>
      unfold checkType visit
      by_cases hin : t ∈ st.checked
      · rw [if_pos hin, if_pos hin]
        rfl
      · rw [if_neg hin, if_neg hin]
        cases hkind : kind t with
        | struct fields =>
            refine foldlM_project State.checked Field.type (fun st f => ?_) fields _
            rw [ih, checkField_checked]
        | slice elem | array elem | ptr elem =>
            refine (ih _ _).trans ?_
            exact (List.foldlM_cons.trans (bind_pure _)).symm
        | map elem key =>
            have hloop := foldlM_project (g := fun seen u => visit (fun t => (kind t).parts) fuel u seen)
              State.checked id ih [elem, key] { st with checked := t :: st.checked }
            simpa [Shape.parts] using hloop
        | other => rfl

/-- The number of lower-case fields of several types. -/
def lowerIn (isUpper : Char → Bool) (kind : α → Shape α) : List α → Nat
  | [] => 0
  | t :: ts => (kind t).lowerFields isUpper + lowerIn isUpper kind ts

omit [DecidableEq α] in
theorem lowerIn_append (ts us : List α) :
    lowerIn isUpper kind (ts ++ us) = lowerIn isUpper kind ts + lowerIn isUpper kind us := by
  induction ts with
  | nil => exact (Nat.zero_add _).symm
  | cons t ts ih =>
      show (kind t).lowerFields isUpper + lowerIn isUpper kind (ts ++ us) = _
      rw [ih, ← Nat.add_assoc]
      rfl

theorem lowerIn_eq_sum {ts : List α} (h : ts.Nodup) :
    lowerIn isUpper kind ts = ∑ u ∈ ts.toFinset, (kind u).lowerFields isUpper := by
  induction ts with
  | nil => rfl
  | cons t ts ih =>
      obtain ⟨hout, h⟩ := List.nodup_cons.mp h
      rw [List.toFinset_cons, Finset.sum_insert (fun hin => hout (List.mem_toFinset.mp hin)), ← ih h]
      rfl

/-- The counter goes up by the lower-case fields of the types that are added. -/
def Counted (isUpper : Char → Bool) (kind : α → Shape α) (extra : Nat) (st st' : State α) : Prop :=
  ∃ new, st'.checked = new ++ st.checked ∧
    st'.errorCount = st.errorCount + extra + lowerIn isUpper kind new

omit [DecidableEq α] in
theorem Counted.trans {extra extra' : Nat} {st st' st'' : State α} (h : Counted isUpper kind extra st st')
    (h' : Counted isUpper kind extra' st' st'') : Counted isUpper kind (extra + extra') st st'' := by
  obtain ⟨new, hchecked, hcount⟩ := h
  obtain ⟨new', hchecked', hcount'⟩ := h'
  refine ⟨new' ++ new, by rw [hchecked', hchecked, List.append_assoc], ?_⟩
  rw [hcount', hcount, lowerIn_append]
  omega

/-- The loop over the fields counts the lower-case ones among them, and what the types below add. -/
theorem checkFields_counted {fuel : Nat}
    (hcheck : ∀ {st st' : State α} {t : α}, checkType isUpper kind fuel st t = some st' → Counted isUpper kind 0 st st')
    {fields : List (Field α)} {st st' : State α}
    (h : fields.foldlM (fun st f => checkType isUpper kind fuel (st.checkField isUpper f) f.type) st = some st') :
    Counted isUpper kind (fields.countP (Field.lower isUpper)) st st' := by
  induction fields generalizing st with
  | nil =>
      cases h
      exact ⟨[], rfl, rfl⟩
  | cons f fields ih =>
      rw [List.foldlM_cons] at h
      obtain ⟨mid, hone, hrest⟩ := Option.bind_eq_some_iff.mp h
      have hfield : Counted isUpper kind (if f.lower isUpper then 1 else 0) st (st.checkField isUpper f) :=
        ⟨[], checkField_checked st f, checkField_errorCount st f⟩
      have hall := (hfield.trans (hcheck hone)).trans (ih hrest)
      rw [Nat.add_zero, Nat.add_comm] at hall
      rw [List.countP_cons]
      exact hall

/-- One call counts the fields of the types that it marks. -/
theorem checkType_counted {fuel : Nat} {st st' : State α} {t : α}
    (h : checkType isUpper kind fuel st t = some st') : Counted isUpper kind 0 st st' := by
  induction fuel generalizing st st' t with
  | zero => cases h
  | succ fuel ih =>
      unfold checkType at h
      split at h
      · cases h
        exact ⟨[], rfl, rfl⟩
      -- what the rest counts, and the fields of `t` itself
      suffices hrest : Counted isUpper kind ((kind t).lowerFields isUpper) { st with checked := t :: st.checked } st' by
        obtain ⟨new, hchecked, hcount⟩ := hrest
        refine ⟨new ++ [t], by rw [hchecked, List.append_assoc]; rfl, ?_⟩
        rw [hcount, lowerIn_append]
        simp only [lowerIn]
        omega
      cases hkind : kind t with
      | struct fields =>
          rw [hkind] at h
          exact checkFields_counted ih h
      | slice elem | array elem | ptr elem =>
          rw [hkind] at h
          exact ih h
      | map elem key =>
          rw [hkind] at h
          obtain ⟨mid, hone, htwo⟩ := Option.bind_eq_some_iff.mp h
          exact (ih hone).trans (ih htwo)
      | other =>
          rw [hkind] at h
          cases h
          exact ⟨[], rfl, rfl⟩

theorem checkTypes_counted {fuel : Nat} {ts : List α} {st st' : State α}
    (h : checkTypes isUpper kind fuel ts st = some st') : Counted isUpper kind 0 st st' := by
  induction ts generalizing st with
  | nil =>
      cases h
      exact ⟨[], rfl, rfl⟩
  | cons t ts ih =>
      unfold checkTypes at h
      rw [List.foldlM_cons] at h
      obtain ⟨mid, hone, hrest⟩ := Option.bind_eq_some_iff.mp h
      exact (checkType_counted hone).trans (ih hrest)

variable (isUpper kind) in
theorem checkTypes_visitAll (fuel : Nat) (ts : List α) (st : State α) :
    (checkTypes isUpper kind fuel ts st).map State.checked =
      visitAll (fun t => (kind t).parts) fuel ts st.checked := by
  have hloop := foldlM_project (g := fun seen u => visit (fun t => (kind t).parts) fuel u seen)
    State.checked id (checkType_visit isUpper kind fuel) ts st
  rw [List.map_id] at hloop
  exact hloop

end Check

/-- **Every lower-case field is counted once.** Calls on any types in any order, starting from nothing checked: each
of them returns, what has been checked in the end is what occurs in one of the types, and every lower-case field of it
has been counted once. -/
theorem checkTypes_exact {α : Type} [Fintype α] [DecidableEq α] (isUpper : Char → Bool) (kind : α → Shape α)
    (ts : List α) (e0 : Nat) {fuel : Nat} (hfuel : Fintype.card α < fuel) :
    ∃ st, checkTypes isUpper kind fuel ts { checked := [], errorCount := e0 } = some st ∧
      st.checked.Nodup ∧
      (∀ u, u ∈ st.checked ↔ ∃ t ∈ ts, Relation.ReflTransGen (Part kind) t u) ∧
      st.errorCount = e0 + ∑ u ∈ st.checked.toFinset, (kind u).lowerFields isUpper := by
  have hunmarked : (unmarked (Finset.univ : Finset α) []).card < fuel :=
    Nat.lt_of_le_of_lt (Finset.card_le_univ _) hfuel
  obtain ⟨seen, hseen⟩ : ∃ seen, visitAll (fun t => (kind t).parts) fuel ts [] = some seen :=
    visitAll_some (fun _ _ _ _ => Finset.mem_univ _) (fun _ _ => Finset.mem_univ _) hunmarked
  have hmap := checkTypes_visitAll isUpper kind fuel ts ⟨[], e0⟩
  rw [hseen] at hmap
  obtain ⟨st, hst, rfl⟩ := Option.map_eq_some_iff.mp hmap
  have hexplored := visitAll_explored hseen
  refine ⟨st, hst, hexplored.nodup List.nodup_nil, fun u => ?_, ?_⟩
  · rw [hexplored.mem_iff (by simp)]
    simp only [List.not_mem_nil, false_or, leads_parts_iff]
  · obtain ⟨new, hchecked, hcount⟩ := checkTypes_counted hst
    rw [List.append_nil] at hchecked
    rw [hcount, ← hchecked, lowerIn_eq_sum (hexplored.nodup List.nodup_nil)]
    rfl

/-- A list cell with a field `Yes` and a field `no` that points to the next cell. -/
def cellKind : Fin 3 → Shape (Fin 3)
  | 0 => .struct [⟨"Yes", 1⟩, ⟨"no", 2⟩]
  | 1 => .other
  | 2 => .ptr 0

theorem checkTypes_exact_cell :
    ∃ st, checkTypes Char.isUpper cellKind 4 [0, 2, 0] { checked := [], errorCount := 7 } = some st ∧
      st.checked.Nodup ∧ 2 ∈ st.checked := by
  obtain ⟨st, hst, hnodup, hmem, _⟩ := checkTypes_exact Char.isUpper cellKind [0, 2, 0] 7
    (show Fintype.card (Fin 3) < 4 by decide)
  exact ⟨st, hst, hnodup, (hmem 2).mpr ⟨2, by simp, Relation.ReflTransGen.refl⟩⟩

end LabGob
end DistributedLabs
