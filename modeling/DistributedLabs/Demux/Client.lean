import Mathlib.Algebra.Group.Nat.Defs
import Mathlib.Data.List.AList
import DistributedLabs.Lib.Transition

/-!
# `Demux.Client` — many calls over one connection

`tester1/demux/dmxclnt.go` and `callmap.go`: callers of `SendReceive` register a channel under a tag of their own,
write their request to the connection and wait; one reader takes the replies off the connection and hands each to
the channel under its tag. When the connection fails the reader closes the call map and fails what is left in it.

## How the code is cut into steps

A channel belongs to one call of `SendReceive`, so the call map is a map from tags to calls. The channels are
unbuffered: the reader's send is the caller's receive, one step (`deliver`). The methods of the call map hold its
lock and are one step each. `WriteCall` runs under the client's lock, which keeps messages whole; here a message is
whole by itself, and a caller that writes does not keep others from doing so. A write reaches the peer or it does
not, and what it returns is not looked at.

## The surroundings

The peer is any that answers each request at most once and never the `InitMsg`, which has tag 0. The connection may
fail at any moment, and `Close` may be called at any moment: what it does to the connection is such a failure.
`Demux.Server` replaces the peer by the code of the other side.

`Step` is the relation and `next` the function that computes it, for running a trace; the invariant is in
`Demux.Delivery`, and what it gives over whole runs in `Demux.Results`.
-/

namespace DistributedLabs
namespace Demux

open Lib

/-- `Ttag`, which wraps around after `2 ^ 32` calls. -/
abbrev Ttag := UInt32
abbrev Bytes := List UInt8

/-- A call of `SendReceive`. -/
abbrev CallId := Nat

/-- The `reply` that is sent on a call's channel. -/
structure Reply where
  rep : Bytes
  ok : Bool
  err : Option String
deriving DecidableEq, Repr

/-- What the reader's final loop sends. -/
def readerFailure : Reply := ⟨[], false, some "reader reply fail"⟩

/-- What `SendReceive` returns when `put` fails. -/
def connClosed : Reply := ⟨[], false, some "conn closed"⟩

/-- Where a call of `SendReceive` is, with the variables it still uses. A call that has its reply keeps its tag here
    for the record. -/
inductive Caller where
  | idle
  | called (b : Bytes)
  | tagged (t : Ttag) (b : Bytes)
  | refused (rep : Reply)
  | registered (t : Ttag) (b : Bytes)
  | writing (t : Ttag)
  | waiting (t : Ttag)
  | returned (t : Ttag) (rep : Reply)
deriving DecidableEq, Repr

/-- Where the reader is. `rest` is what the final loop has yet to do, `none` in the first loop. -/
inductive Reader where
  | reading
  | replying (t : Ttag) (rep : Reply) (rest : Option (List Ttag))
  | sending (c : CallId) (rep : Reply) (rest : Option (List Ttag))
  | failed
  | draining
  | failing (ts : List Ttag)
  | finished
  | aborted
deriving DecidableEq, Repr

/-- The call map is `closed` and `calls`; `out` holds the requests the peer has yet to answer, `wire` its
    answers. -/
structure State where
  nextTag : Ttag
  closed : Bool
  calls : AList (fun _ : Ttag => CallId)
  caller : CallId → Caller
  reader : Reader
  out : List (Ttag × Bytes)
  wire : List (Ttag × Bytes × Bool)

/-- The call `c` goes on as `p`. -/
def State.setCaller (s : State) (c : CallId) (p : Caller) : State :=
  { s with caller := Function.update s.caller c p }

/-- Where the reader goes from `reply`. -/
def Reader.resume : Option (List Ttag) → Reader
  | none => .reading
  | some ts => .failing ts

/-- The steps: of the callers, the peer, the reader, and `Close`. -/
inductive Event where
  | call (c : CallId) (b : Bytes)
  | tag (c : CallId) (t : Ttag)
  | put (c : CallId)
  | refuse (c : CallId)
  | write (c : CallId)
  | writeFails (c : CallId)
  | written (c : CallId)
  | answer (t : Ttag) (b : Bytes) (ok : Bool)
  | read
  | readFails
  | closeMap
  | outstanding (ts : List Ttag)
  | fail
  | finish
  | remove
  | abort
  | deliver (c : CallId) (rep : Reply)
  | close
deriving DecidableEq, Repr

/-- A step of the client or of its peer. -/
inductive Step : State → Event → State → Prop where
  -- `SendReceive`
  | call {s c b} : s.caller c = .idle → Step s (.call c b) (s.setCaller c (.called b))
  | tag {s c b} : s.caller c = .called b →
      Step s (.tag c s.nextTag) { s.setCaller c (.tagged s.nextTag b) with nextTag := s.nextTag + 1 }
  | put {s c t b} : s.caller c = .tagged t b → s.closed = false →
      Step s (.put c) { s.setCaller c (.registered t b) with calls := s.calls.insert t c }
  | refuse {s c t b} : s.caller c = .tagged t b → s.closed = true →
      Step s (.refuse c) (s.setCaller c (.refused connClosed))
  | write {s c t b} : s.caller c = .registered t b →
      Step s (.write c) { s.setCaller c (.writing t) with out := s.out ++ [(t, b)] }
  | writeFails {s c t b} : s.caller c = .registered t b → Step s (.writeFails c) (s.setCaller c (.writing t))
  | written {s c t} : s.caller c = .writing t → Step s (.written c) (s.setCaller c (.waiting t))
  -- the peer
  | answer {s t b ok} : t ∈ s.out.map Prod.fst →
      Step s (.answer t b ok)
        { s with out := s.out.filter (fun m => m.1 ≠ t), wire := s.wire ++ [(t, b, ok)] }
  -- `reader` and `reply`
  | read {s t b ok wire} : s.reader = .reading → s.wire = (t, b, ok) :: wire →
      Step s .read { s with reader := .replying t ⟨b, ok, none⟩ none, wire := wire }
  | readFails {s} : s.reader = .reading → Step s .readFails { s with reader := .failed }
  | closeMap {s} : s.reader = .failed → Step s .closeMap { s with reader := .draining, closed := true }
  | outstanding {s ts} : s.reader = .draining → ts.Perm s.calls.keys →
      Step s (.outstanding ts) { s with reader := .failing ts }
  | fail {s t ts} : s.reader = .failing (t :: ts) →
      Step s .fail { s with reader := .replying t readerFailure (some ts) }
  | finish {s} : s.reader = .failing [] → Step s .finish { s with reader := .finished }
  | remove {s t rep rest c} : s.reader = .replying t rep rest → s.calls.lookup t = some c →
      Step s .remove { s with reader := .sending c rep rest, calls := s.calls.erase t }
  | abort {s t rep rest} : s.reader = .replying t rep rest → s.calls.lookup t = none →
      Step s .abort { s with reader := .aborted }
  | deliver {s c rep rest t} : s.reader = .sending c rep rest → s.caller c = .waiting t →
      Step s (.deliver c rep) { s.setCaller c (.returned t rep) with reader := Reader.resume rest }
  -- `Close`
  | close {s} : Step s .close { s with closed := true }

/-- After `NewDemuxClnt`, which has written the `InitMsg` under tag 0. -/
def demux : LTS State Event where
  init := ⟨1, false, ∅, fun _ => .idle, .reading, [], []⟩
  step := Step

/-- The step an event names, if it is possible: the executable form of `Step`. -/
def next (s : State) : Event → Option State
  | .call c b => match s.caller c with
      | .idle => some (s.setCaller c (.called b))
      | _ => none
  | .tag c t => match s.caller c with
      | .called b =>
          if t = s.nextTag then
            some { s.setCaller c (.tagged s.nextTag b) with nextTag := s.nextTag + 1 }
          else none
      | _ => none
  | .put c => match s.caller c with
      | .tagged t b =>
          if s.closed = false then
            some { s.setCaller c (.registered t b) with calls := s.calls.insert t c }
          else none
      | _ => none
  | .refuse c => match s.caller c with
      | .tagged _ _ => if s.closed = true then some (s.setCaller c (.refused connClosed)) else none
      | _ => none
  | .write c => match s.caller c with
      | .registered t b => some { s.setCaller c (.writing t) with out := s.out ++ [(t, b)] }
      | _ => none
  | .writeFails c => match s.caller c with
      | .registered t _ => some (s.setCaller c (.writing t))
      | _ => none
  | .written c => match s.caller c with
      | .writing t => some (s.setCaller c (.waiting t))
      | _ => none
  | .answer t b ok =>
      if t ∈ s.out.map Prod.fst then
        some { s with out := s.out.filter (fun m => m.1 ≠ t), wire := s.wire ++ [(t, b, ok)] }
      else none
  | .read => match s.reader, s.wire with
      | .reading, (t, b, ok) :: wire =>
          some { s with reader := .replying t ⟨b, ok, none⟩ none, wire := wire }
      | _, _ => none
  | .readFails => match s.reader with
      | .reading => some { s with reader := .failed }
      | _ => none
  | .closeMap => match s.reader with
      | .failed => some { s with reader := .draining, closed := true }
      | _ => none
  | .outstanding ts => match s.reader with
      | .draining => if ts.Perm s.calls.keys then some { s with reader := .failing ts } else none
      | _ => none
  | .fail => match s.reader with
      | .failing (t :: ts) => some { s with reader := .replying t readerFailure (some ts) }
      | _ => none
  | .finish => match s.reader with
      | .failing [] => some { s with reader := .finished }
      | _ => none
  | .remove => match s.reader with
      | .replying t rep rest => match s.calls.lookup t with
          | some c => some { s with reader := .sending c rep rest, calls := s.calls.erase t }
          | none => none
      | _ => none
  | .abort => match s.reader with
      | .replying t _ _ => if s.calls.lookup t = none then some { s with reader := .aborted } else none
      | _ => none
  | .deliver c rep => match s.reader, s.caller c with
      | .sending c' rep' rest, .waiting t =>
          if c' = c ∧ rep' = rep then
            some { s.setCaller c (.returned t rep) with reader := Reader.resume rest }
          else none
      | _, _ => none
  | .close => some { s with closed := true }

end Demux
end DistributedLabs
