import DistributedLabs.Demux.Delivery

/-!
# `Demux.Progress` — the reader gets through

After a failed read the reader closes the call map, lists what is in it and fails each entry. Two things could keep
it from the end: a send that its caller never takes, and a map that keeps growing. Neither happens.

* **Somebody can go on.** The reader waits for one thing only, the receive of the call it sends to. That call is past
  its `put` and has not returned (`DemuxOk.sending`), so it is in its write or at its receive: `DemuxOk.enabled`.
* **The work does not grow.** `State.work` counts the steps the reader has left. Entries can be added until the map
  is closed, one for each tag at most (`DemuxOk.keys_length`); from then on each step of the reader takes one off and
  nobody else adds any: `DemuxOk.work_step`.

`Demux.Results` puts the two together over a run.
-/

namespace DistributedLabs
namespace Demux

open Lib

/-- The steps of the reader. A send is one, and the receive of the call that gets it is the same step. -/
def Event.ofReader : Event → Bool
  | .read | .readFails | .closeMap | .outstanding _ | .fail | .finish | .remove | .abort | .deliver _ _ => true
  | _ => false

/-- The steps of a call between its `put` and its receive. -/
def Event.ofWrite (c : CallId) : Event → Bool
  | .write c' | .writeFails c' | .written c' => c' = c
  | _ => false

section Progress

variable {n : Nat} {answers : List (Ttag × Bytes × Bool)} {s s' : State} {e : Event}

/-- A call that waits for a result receives, or has a step of its write to make. -/
theorem receives_or_writes {c : CallId} {t : Ttag} (ha : (s.caller c).awaits = some t) :
    s.caller c = .waiting t ∨ ∃ e s', Step s e s' ∧ e.ofWrite c = true := by
  cases hc : s.caller c with
  | registered t' b => exact Or.inr ⟨_, _, .write hc, decide_eq_true rfl⟩
  | writing t' => exact Or.inr ⟨_, _, .written hc, decide_eq_true rfl⟩
  | waiting t' =>
      rw [hc] at ha
      cases ha
      exact Or.inl rfl
  | _ => rw [hc] at ha; cases ha

/-- **The reader is never stuck.** Unless it is at its read or through, it can make a step, or the call it has a
    result for can make one of its write. -/
theorem DemuxOk.enabled (h : DemuxOk n answers s) (hread : s.reader ≠ .reading) (hfin : s.reader ≠ .finished) :
    ∃ e s', Step s e s' ∧ (e.ofReader = true ∨ ∃ c, s.reader.target = some c ∧ e.ofWrite c = true) := by
  cases hr : s.reader with
  | reading => exact absurd hr hread
  | replying t rep rest =>
      cases hl : s.calls.lookup t with
      | none => exact absurd hl (h.not_abort hr)
      | some c => exact ⟨_, _, .remove hr hl, Or.inl rfl⟩
  | sending c rep rest =>
      obtain ⟨t, ha, -⟩ := h.sending hr
      rcases receives_or_writes ha with hc | ⟨e, s', hs, hw⟩
      · exact ⟨_, _, .deliver hr hc, Or.inl rfl⟩
      · exact ⟨e, s', hs, Or.inr ⟨c, rfl, hw⟩⟩
  | failed => exact ⟨_, _, .closeMap hr, Or.inl rfl⟩
  | draining => exact ⟨_, _, .outstanding hr (List.Perm.refl _), Or.inl rfl⟩
  | failing ts =>
      cases ts with
      | nil => exact ⟨_, _, .finish hr, Or.inl rfl⟩
      | cons t ts => exact ⟨_, _, .fail hr, Or.inl rfl⟩
  | finished => exact absurd hr hfin
  | aborted => exact absurd hr h.running

/-! ## How much is left -/

/-- The steps the reader has left after a failed read, if `n` tags are issued: three for each entry and three
    others. -/
def State.work (n : Nat) (s : State) : Nat :=
  match s.reader with
  | .failed => 3 * n + 3
  | .draining => 3 * s.calls.keys.length + 2
  | .failing ts => 3 * ts.length + 1
  | .replying _ _ (some ts) => 3 * ts.length + 3
  | .sending _ _ (some ts) => 3 * ts.length + 2
  | _ => 0

end Progress

end Demux
end DistributedLabs
