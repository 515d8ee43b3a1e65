import Mathlib.Logic.Basic

/-!
# `Lib.Loop` — loops that run until they break

A loop `for { … }` is its body, which says how the state changes or that the loop breaks. `loopIn body n x` is the
state in which the loop breaks if it does so within `n` rounds. Two rules are all that is used of it: a measure
that goes down in every round bounds the rounds (`loopIn_terminates`), and what every round keeps holds where
the loop breaks (`loopIn_invariant`).
-/

namespace DistributedLabs
namespace Lib

variable {σ : Type} {body : σ → Option σ}

/-- Run a loop for at most `n` rounds; `none` if it has not come to its `break` by then. -/
def loopIn (body : σ → Option σ) : Nat → σ → Option σ
  | 0, _ => none
  | n + 1, x =>
      match body x with
      | none => some x
      | some x' => loopIn body n x'

theorem loopIn_succ_of_none {x : σ} (h : body x = none) (n : Nat) : loopIn body (n + 1) x = some x := by
  rw [loopIn, h]

theorem loopIn_succ_of_some {x x' : σ} (h : body x = some x') (n : Nat) :
    loopIn body (n + 1) x = loopIn body n x' := by
  rw [loopIn, h]

/-- More rounds do no harm. -/
theorem loopIn_mono {n m : Nat} {x y : σ} (hle : n ≤ m) (h : loopIn body n x = some y) :
    loopIn body m x = some y := by
  induction n generalizing m x with
  | zero => cases h
  | succ n ih =>
      obtain ⟨m, rfl⟩ : ∃ k, m = k + 1 := ⟨m - 1, by omega⟩
      cases hx : body x with
      | none => rwa [loopIn_succ_of_none hx] at h ⊢
      | some x' =>
          rw [loopIn_succ_of_some hx] at h ⊢
          exact ih (by omega) h

/-- A loop whose body makes a measure smaller breaks within that many rounds. -/
theorem loopIn_terminates {meas : σ → Nat} (hdec : ∀ x x', body x = some x' → meas x' < meas x)
    {n : Nat} {x : σ} (hn : meas x < n) : ∃ y, loopIn body n x = some y := by
  induction n generalizing x with
  | zero => exact absurd hn (Nat.not_lt_zero _)
  | succ n ih =>
      cases hx : body x with
      | none => exact ⟨x, loopIn_succ_of_none hx n⟩
      | some x' =>
          have hlt := hdec x x' hx
          obtain ⟨y, hy⟩ := ih (x := x') (by omega)
          exact ⟨y, by rw [loopIn_succ_of_some hx, hy]⟩

/-- What every round keeps holds where the loop breaks. -/
theorem loopIn_invariant {P : σ → Prop} (hkeep : ∀ x x', P x → body x = some x' → P x') {n : Nat} {x y : σ}
    (hx : P x) (h : loopIn body n x = some y) : P y ∧ body y = none := by
  induction n generalizing x with
  | zero => cases h
  | succ n ih =>
      cases hb : body x with
      | none =>
          rw [loopIn_succ_of_none hb] at h
          obtain rfl := Option.some.inj h
          exact ⟨hx, hb⟩
      | some x' =>
          rw [loopIn_succ_of_some hb] at h
          exact ih (hkeep x x' hx hb) h

end Lib
end DistributedLabs
