import DistributedLabs.KvSrv.Linearizable
import DistributedLabs.KvSrv.Model

/-!
# `KvSrv.OpLog` — what the tests record, and what the checker makes of it

`kvtest1/porcupine.go`: a client of a test reads the clock, calls its Clerk, reads the clock again, and appends the
operation with both times to a log that all clients share. When the clients are done, porcupine looks for an order of
the log, key by key, that does not contradict the times and that `KvModel` accepts.

## The argument

The order of the log is any: a client may be overtaken between its second look at the clock and `Append`. But the times
enclose the call, so one operation that ended before another began had returned before the other was invoked
(`Stamps.order`). The linearization of the run, with the entries of the log in place of the calls, is then an order as
porcupine wants it, up to one thing: `KvModel` does not know `ErrNoKey` (`checkPorcupine_accepts_iff`).

## What is assumed

* The clock does not go back. The source wants that too, but `t0` is `time.Unix(0, 0)`, which has no monotonic reading,
  so `time.Since(t0)` is the wall clock.
* Porcupine itself is not modelled. `Orderable` is the question it is asked, `Answers` that its answer is right unless
  it runs out of time. `checkPorcupine` takes an answer that did not come in time for a good one.
-/

namespace DistributedLabs
namespace KvSrv

open Lib

/-- The input that is recorded for a call. -/
def Op.input : Op → KvInput
  | .get args => { op := 0, key := args.key }
  | .put args => ⟨1, args.key, args.value, args.version⟩

/-- The output that is recorded for what a Clerk returned. -/
def Reply.output : Reply → KvOutput
  | .get r => ⟨r.value, r.version, r.err⟩
  | .put r => { err := r.err }

namespace OpLog

/-! ## The code -/

/-- A `porcupine.Operation` with its times. The number of the call is not part of it; it says which call the entry
    is about. -/
structure TimedOp where
  id : Nat
  operation : Operation
  call : Nat
  ret : Nat
  clientId : ClientId
deriving DecidableEq, Repr

/-- Where a client is in `Test.Get` or `Test.Put`. -/
inductive Pc where
  | idle
  | started (start : Nat)
  | calling (start id : Nat) (op : Op)
  | returned (start id : Nat) (op : Op) (r : Reply)
  | stopped (start stop id : Nat) (op : Op) (r : Reply)
deriving DecidableEq, Repr

/-- The service, the clock, where each client is, and the log. -/
structure State where
  net : KvSrv.State
  now : Nat
  pc : ClientId → Pc
  log : List TimedOp

/-- Client `c` is at `pc` now. -/
def State.setPc (s : State) (c : ClientId) (pc : Pc) : State := { s with pc := Function.update s.pc c pc }

/-- The state after `Append`. -/
def State.appended (s : State) (c : ClientId) (x : TimedOp) : State :=
  { s.setPc c .idle with log := s.log ++ [x] }

/-- The clock goes on, the service takes a step, or a client does something of its own. -/
inductive Event where
  | clock (d : Nat)
  | start (c : ClientId)
  | net (e : KvSrv.Event)
  | stop (c : ClientId)
  | append (c : ClientId)
deriving DecidableEq, Repr

/-- A step. A client calls its Clerk between its two looks at the clock. -/
inductive Step : State → Event → State → Prop where
  | clock {s d} : Step s (.clock d) { s with now := s.now + d }
  | start {s c} : s.pc c = .idle → Step s (.start c) (s.setPc c (.started s.now))
  | invoke {s c start id op net'} : s.pc c = .started start → KvSrv.Step s.net (.invoke c id op) net' →
      Step s (.net (.invoke c id op)) { s.setPc c (.calling start id op) with net := net' }
  | ret {s c start id id' op op' r net'} : s.pc c = .calling start id' op' →
      KvSrv.Step s.net (.ret c id op r) net' →
      Step s (.net (.ret c id op r)) { s.setPc c (.returned start id' op' r) with net := net' }
  -- whatever else the network and the server do
  | other {s e net'} : e.hist = none → KvSrv.Step s.net e net' → Step s (.net e) { s with net := net' }
  | stop {s c start id op r} : s.pc c = .returned start id op r →
      Step s (.stop c) (s.setPc c (.stopped start s.now id op r))
  | append {s c start stop id op r} : s.pc c = .stopped start stop id op r →
      Step s (.append c) (s.appended c ⟨id, ⟨op.input, r.output⟩, start, stop, c⟩)

/-- The clients of a test, on a fresh service. -/
def recorded : LTS State Event where
  init := ⟨KvSrv.net.init, 0, fun _ => .idle, []⟩
  step := Step

/-- What the service sees of a step. -/
def Event.ofNet : Event → Option KvSrv.Event
  | .net e => some e
  | _ => none

/-- What happened to the service. -/
def netPart (tr : List Event) : List KvSrv.Event := tr.filterMap Event.ofNet

/-- What porcupine looks for among the entries of one part: an order that does not put an operation before one that
    had returned when it was called, and that the model accepts. -/
def Accepts (part : List TimedOp) : Prop :=
  ∃ order : List TimedOp, order.Perm part ∧ order.Pairwise (fun x y => ¬ y.ret < x.call)
    ∧ (check kvInit (order.map TimedOp.operation)).isSome = true

/-- The question that `checkPorcupine` asks: is there such an order for the entries of every part that
    `KvModel.Partition` makes of the log? -/
def Orderable (log : List TimedOp) : Prop :=
  ∀ part ∈ partition (log.map TimedOp.operation), Accepts (log.filter (fun x => x.operation ∈ part))

/-- A `porcupine.CheckResult`. -/
inductive CheckResult where
  | unknown
  | ok
  | illegal
deriving DecidableEq, Repr

/-- Porcupine's answer to the question, if it comes in time, is right. -/
structure Answers (log : List TimedOp) (res : CheckResult) : Prop where
  ok : res = .ok → Orderable log
  illegal : res = .illegal → ¬ Orderable log

/-- `checkPorcupine` on what `CheckOperationsVerbose` has returned: whether the test goes on. -/
def checkPorcupine : CheckResult → Bool
  | .illegal => false
  | .unknown => true
  | .ok => true

/-- The parts are the operations of one key each. -/
theorem mem_partition_log {log : List TimedOp} {part : List Operation} :
    part ∈ partition (log.map TimedOp.operation) ↔ ∃ key, (∃ x ∈ log, x.operation.input.key = key)
      ∧ part = (log.filter (fun x => x.operation.input.key = key)).map TimedOp.operation := by
  rw [mem_partition]
  unfold onKey
  simp only [List.mem_map, exists_exists_and_eq_and, List.filter_map, Function.comp_def]

/-- The question, key by key. -/
theorem orderable_iff {log : List TimedOp} :
    Orderable log ↔
      ∀ x ∈ log, Accepts (log.filter (fun y => y.operation.input.key = x.operation.input.key)) := by
  have hentries : ∀ key, log.filter (fun x => x.operation ∈ (log.filter (fun x => x.operation.input.key = key)).map
      TimedOp.operation) = log.filter (fun x => x.operation.input.key = key) := by
    intro key
    refine List.filter_congr (fun x hx => ?_)
    simp only [List.mem_map, List.mem_filter, decide_eq_true_eq, decide_eq_decide]
    constructor
    · rintro ⟨y, ⟨_, hy⟩, hsame⟩
      rw [← hsame, hy]
    · intro hkey
      exact ⟨x, ⟨hx, hkey⟩, rfl⟩
  constructor
  · intro h x hx
    rw [← hentries]
    exact h _ (mem_partition_log.mpr ⟨_, ⟨x, hx, rfl⟩, rfl⟩)
  · intro h part hpart
    obtain ⟨_, ⟨x, hx, rfl⟩, rfl⟩ := mem_partition_log.mp hpart
    rw [hentries]
    exact h x hx

/-! ## Calls that are under way and calls that are logged -/

/-- When a client that has not called yet read the clock. -/
def Pc.startedAt : Pc → Option Nat
  | .started start => some start
  | _ => none

/-- The call of the Clerk a client is in. -/
def Pc.inCall : Pc → Option (Nat × Op)
  | .calling _ id op => some (id, op)
  | _ => none

/-- The call a client is at, and when it read the clock before. -/
def Pc.called : Pc → Option (Nat × Nat)
  | .calling start id _ | .returned start id _ _ | .stopped start _ id _ _ => some (id, start)
  | _ => none

/-- The call a client has returned from, with the result. -/
def Pc.done : Pc → Option (Nat × Op × Reply)
  | .returned _ id op r | .stopped _ _ id op r => some (id, op, r)
  | _ => none

/-- The call a client has ended, and when it read the clock again. -/
def Pc.ended : Pc → Option (Nat × Nat)
  | .stopped _ stop id _ _ => some (id, stop)
  | _ => none

/-- Call `id` was stamped with `start` before it began. -/
def State.Called (s : State) (id start : Nat) : Prop :=
  (∃ c, (s.pc c).called = some (id, start)) ∨ ∃ x ∈ s.log, x.id = id ∧ x.call = start

/-- Call `id` was stamped with `stop` after it returned. -/
def State.Ended (s : State) (id stop : Nat) : Prop :=
  (∃ c, (s.pc c).ended = some (id, stop)) ∨ ∃ x ∈ s.log, x.id = id ∧ x.ret = stop

/-- The stamps enclose the calls. -/
structure Stamps (h : List (HEvent Op Reply)) (s : State) : Prop where
  called : ∀ {id start}, s.Called id start → start ≤ s.now ∧ ∃ op, .inv id op ∈ h
  ended : ∀ {id stop}, s.Ended id stop → ∃ r, .res id r ∈ h
  order : ∀ {a b stop start}, s.Ended a stop → s.Called b start → Precedes h a b ∨ start ≤ stop

/-- Every call is with one client or in one entry of the log. -/
structure Books (h : List (HEvent Op Reply)) (s : State) : Prop where
  started : ∀ {c start}, (s.pc c).startedAt = some start → start ≤ s.now
  calling : ∀ {c id op}, (s.pc c).inCall = some (id, op) →
    ∃ call, s.net.calls c = some call ∧ call.id = id ∧ call.op = op
  done : ∀ {c id op r}, (s.pc c).done = some (id, op, r) → .inv id op ∈ h ∧ .res id r ∈ h
  logged : ∀ {x}, x ∈ s.log → ∃ op r, .inv x.id op ∈ h ∧ .res x.id r ∈ h ∧ x.operation = ⟨op.input, r.output⟩
  covered : ∀ {id op}, .inv id op ∈ h → ∃ start, s.Called id start
  logOnce : (s.log.map TimedOp.id).Nodup
  notLogged : ∀ {c id start}, (s.pc c).called = some (id, start) → id ∉ s.log.map TimedOp.id
  callOnce : ∀ {c c' id start start'}, (s.pc c).called = some (id, start) → (s.pc c').called = some (id, start') →
    c = c'

section Steps

variable {h h' : List (HEvent Op Reply)} {s s' : State} {c c' : ClientId} {p : Pc} {id start stop : Nat}

/-- What is known of a client after one client has moved. -/
theorem pc_cases {α : Type} (f : Pc → Option α) {y : α} (hy : f (s'.pc c') = some y)
    (hpc : s'.pc = Function.update s.pc c p) : (c' = c ∧ f p = some y) ∨ (c' ≠ c ∧ f (s.pc c') = some y) := by
  rw [hpc] at hy
  by_cases hcc : c' = c
  · rw [hcc, Function.update_self] at hy
    exact Or.inl ⟨hcc, hy⟩
  · rw [Function.update_of_ne hcc] at hy
    exact Or.inr ⟨hcc, hy⟩

theorem called_cases (hc : s'.Called id start) (hpc : s'.pc = Function.update s.pc c p) (hlog : s'.log = s.log) :
    s.Called id start ∨ p.called = some (id, start) := by
  rcases hc with ⟨c', hc'⟩ | hlogged
  · rcases pc_cases Pc.called hc' hpc with ⟨_, hnew⟩ | ⟨_, hold⟩
    · exact Or.inr hnew
    · exact Or.inl (Or.inl ⟨c', hold⟩)
  · exact Or.inl (Or.inr (hlog ▸ hlogged))

theorem ended_cases (he : s'.Ended id stop) (hpc : s'.pc = Function.update s.pc c p) (hlog : s'.log = s.log) :
    s.Ended id stop ∨ p.ended = some (id, stop) := by
  rcases he with ⟨c', hc'⟩ | hlogged
  · rcases pc_cases Pc.ended hc' hpc with ⟨_, hnew⟩ | ⟨_, hold⟩
    · exact Or.inr hnew
    · exact Or.inl (Or.inl ⟨c', hold⟩)
  · exact Or.inl (Or.inr (hlog ▸ hlogged))

/-- A stamp stays, unless the moving client drops it. -/
theorem called_update (hpc : s'.pc = Function.update s.pc c p) (hlog : s'.log = s.log)
    (hkeep : ∀ y, (s.pc c).called = some y → p.called = some y) (hc : s.Called id start) : s'.Called id start := by
  rcases hc with ⟨c', hc'⟩ | hlogged
  · refine Or.inl ⟨c', ?_⟩
    rw [hpc]
    by_cases hcc : c' = c
    · subst hcc
      rw [Function.update_self]
      exact hkeep _ hc'
    · rwa [Function.update_of_ne hcc]
  · exact Or.inr (hlog ▸ hlogged)

/-- New stamps are taken in time: before a call is invoked, after it has returned. -/
theorem Stamps.step (hS : Stamps h s) (hnow : s.now ≤ s'.now)
    (hcalled : ∀ {id start}, s'.Called id start → s.Called id start ∨
      start ≤ s'.now ∧ (∃ op, .inv id op ∈ h') ∧ ∀ a, (∃ r, .res a r ∈ h) → Precedes (h ++ h') a id)
    (hended : ∀ {id stop}, s'.Ended id stop → s.Ended id stop ∨ s'.now ≤ stop ∧ ∃ r, .res id r ∈ h) :
    Stamps (h ++ h') s' where
  called hc := by
    rcases hcalled hc with hold | ⟨hle, ⟨op, hinv⟩, _⟩
    · obtain ⟨hle, op, hinv⟩ := hS.called hold
      exact ⟨Nat.le_trans hle hnow, op, List.mem_append_left _ hinv⟩
    · exact ⟨hle, op, List.mem_append_right _ hinv⟩
  ended he := by
    rcases hended he with hold | ⟨_, r, hr⟩
    · obtain ⟨r, hr⟩ := hS.ended hold
      exact ⟨r, List.mem_append_left _ hr⟩
    · exact ⟨r, List.mem_append_left _ hr⟩
  order he hc := by
    rcases hended he with heold | ⟨hlate, _⟩
    · rcases hcalled hc with hold | ⟨_, _, hnew⟩
      · exact (hS.order heold hold).imp_left Precedes.mono
      · exact Or.inl (hnew _ (hS.ended heold))
    · rcases hcalled hc with hold | ⟨hle, _⟩
      · exact Or.inr (Nat.le_trans (Nat.le_trans (hS.called hold).1 hnow) hlate)
      · exact Or.inr (Nat.le_trans hle hlate)

/-- A call of the service that does not return goes on. -/
theorem call_goes_on {net net' : KvSrv.State} {e : KvSrv.Event} (hs : KvSrv.Step net e net')
    (hne : ∀ id op r, e ≠ .ret c id op r) {op : Op}
    (hcall : ∃ call, net.calls c = some call ∧ call.id = id ∧ call.op = op) :
    ∃ call, net'.calls c = some call ∧ call.id = id ∧ call.op = op := by
  obtain ⟨call, hc, rfl, rfl⟩ := hcall
  rcases step_call_kept hs hc with hkept | ⟨r, _, he, _⟩
  · exact hkept
  · exact absurd he (hne _ _ _)

/-- One client moves, and nothing is appended to the log. -/
theorem Books.move (hB : Books h s) (hpc : s'.pc = Function.update s.pc c p) (hlog : s'.log = s.log)
    (hnow : s'.now = s.now) (hstarted : ∀ {start}, p.startedAt = some start → start ≤ s.now)
    (hcalling : ∀ {c' id op}, (s'.pc c').inCall = some (id, op) →
      ∃ call, s'.net.calls c' = some call ∧ call.id = id ∧ call.op = op)
    (hdone : ∀ {id op r}, p.done = some (id, op, r) → .inv id op ∈ h ++ h' ∧ .res id r ∈ h ++ h')
    (hkeep : ∀ y, (s.pc c).called = some y → p.called = some y)
    (hfresh : ∀ y, p.called = some y → (s.pc c).called = some y ∨
      y.1 ∉ s.log.map TimedOp.id ∧ ∀ c' start, (s.pc c').called ≠ some (y.1, start))
    (hinv : ∀ {id op}, .inv id op ∈ h' → ∃ start, p.called = some (id, start)) : Books (h ++ h') s' where
  started hc := by
    rw [hnow]
    rcases pc_cases Pc.startedAt hc hpc with ⟨_, hnew⟩ | ⟨_, hold⟩
    · exact hstarted hnew
    · exact hB.started hold
  calling := hcalling
  done hc := by
    rcases pc_cases Pc.done hc hpc with ⟨_, hnew⟩ | ⟨_, hold⟩
    · exact hdone hnew
    · exact (hB.done hold).imp (List.mem_append_left _) (List.mem_append_left _)
  logged hx := by
    rw [hlog] at hx
    obtain ⟨op, r, hop, hr, hrec⟩ := hB.logged hx
    exact ⟨op, r, List.mem_append_left _ hop, List.mem_append_left _ hr, hrec⟩
  covered hmem := by
    rcases List.mem_append.mp hmem with hold | hnew
    · obtain ⟨start, hc⟩ := hB.covered hold
      exact ⟨start, called_update hpc hlog hkeep hc⟩
    · obtain ⟨start, hp⟩ := hinv hnew
      refine ⟨start, Or.inl ⟨c, ?_⟩⟩
      rw [hpc, Function.update_self]
      exact hp
  logOnce := hlog ▸ hB.logOnce
  notLogged hc := by
    rw [hlog]
    rcases pc_cases Pc.called hc hpc with ⟨_, hnew⟩ | ⟨_, hold⟩
    · rcases hfresh _ hnew with hsame | ⟨hnot, _⟩
      · exact hB.notLogged hsame
      · exact hnot
    · exact hB.notLogged hold
  callOnce {c₁ c₂ id start₁ start₂} h₁ h₂ := by
    -- a client that moved is at a call of its own before, or at a new one
    have hown : ∀ {c' start start'}, p.called = some (id, start) → (s.pc c').called = some (id, start') → c' = c := by
      intro c' start start' hp hc'
      rcases hfresh _ hp with hsame | ⟨_, hnone⟩
      · exact hB.callOnce hc' hsame
      · exact absurd hc' (hnone c' start')
    rcases pc_cases Pc.called h₁ hpc with ⟨hc₁, hnew₁⟩ | ⟨_, hold₁⟩
    · rcases pc_cases Pc.called h₂ hpc with ⟨hc₂, _⟩ | ⟨_, hold₂⟩
      · rw [hc₁, hc₂]
      · rw [hc₁, hown hnew₁ hold₂]
    · rcases pc_cases Pc.called h₂ hpc with ⟨hc₂, hnew₂⟩ | ⟨_, hold₂⟩
      · rw [hc₂, hown hnew₂ hold₁]
      · exact hB.callOnce hold₁ hold₂

/-- No client moves. -/
theorem Books.quiet (hB : Books h s) (hpc : s'.pc = s.pc) (hlog : s'.log = s.log) (hnow : s.now ≤ s'.now)
    (hcalls : ∀ {c id op}, (∃ call, s.net.calls c = some call ∧ call.id = id ∧ call.op = op) →
      ∃ call, s'.net.calls c = some call ∧ call.id = id ∧ call.op = op) : Books h s' where
  started hc := Nat.le_trans (hB.started (hpc ▸ hc)) hnow
  calling hc := hcalls (hB.calling (hpc ▸ hc))
  done hc := hB.done (hpc ▸ hc)
  logged hx := hB.logged (hlog ▸ hx)
  covered hmem := by
    obtain ⟨start, hc⟩ := hB.covered hmem
    refine ⟨start, ?_⟩
    unfold State.Called
    rw [hpc, hlog]
    exact hc
  logOnce := hlog ▸ hB.logOnce
  notLogged hc := hlog ▸ hB.notLogged (hpc ▸ hc)
  callOnce h₁ h₂ := hB.callOnce (hpc ▸ h₁) (hpc ▸ h₂)

theorem Stamps.quiet (hS : Stamps h s) (hpc : s'.pc = s.pc) (hlog : s'.log = s.log) (hnow : s.now ≤ s'.now) :
    Stamps h s' := by
  have hcalled : ∀ {id start}, s'.Called id start → s.Called id start := by
    unfold State.Called
    rw [hpc, hlog]
    exact id
  have hended : ∀ {id stop}, s'.Ended id stop → s.Ended id stop := by
    unfold State.Ended
    rw [hpc, hlog]
    exact id
  have hstep : Stamps (h ++ []) s' := hS.step hnow (fun hc => Or.inl (hcalled hc)) (fun he => Or.inl (hended he))
  rwa [List.append_nil] at hstep

section Append

variable {op : Op} {r : Reply} (hc : s.pc c = .stopped start stop id op r)

include hc

/-- What a call was stamped with is in its entry. -/
theorem called_appended {id' start' : Nat} :
    (s.appended c ⟨id, ⟨op.input, r.output⟩, start, stop, c⟩).Called id' start' ↔ s.Called id' start' := by
  constructor
  · rintro (⟨c', hc'⟩ | ⟨x, hx, rfl, rfl⟩)
    · rcases pc_cases Pc.called hc' rfl with ⟨_, hnew⟩ | ⟨_, hold⟩
      · cases hnew
      · exact Or.inl ⟨c', hold⟩
    · rcases List.mem_append.mp hx with hold | hnew
      · exact Or.inr ⟨x, hold, rfl, rfl⟩
      · obtain rfl := List.mem_singleton.mp hnew
        exact Or.inl ⟨c, by rw [hc]; rfl⟩
  · rintro (⟨c', hc'⟩ | ⟨x, hx, hid⟩)
    · by_cases hcc : c' = c
      · rw [hcc, hc] at hc'
        obtain ⟨rfl, rfl⟩ := Prod.mk.inj (Option.some.inj hc')
        exact Or.inr ⟨_, List.mem_append_right _ (List.mem_singleton_self _), rfl, rfl⟩
      · refine Or.inl ⟨c', ?_⟩
        show (Function.update s.pc c .idle c').called = _
        rwa [Function.update_of_ne hcc]
    · exact Or.inr ⟨x, List.mem_append_left _ hx, hid⟩

theorem ended_appended {id' stop' : Nat}
    (he : (s.appended c ⟨id, ⟨op.input, r.output⟩, start, stop, c⟩).Ended id' stop') : s.Ended id' stop' := by
  rcases he with ⟨c', hc'⟩ | ⟨x, hx, rfl, rfl⟩
  · rcases pc_cases Pc.ended hc' rfl with ⟨_, hnew⟩ | ⟨_, hold⟩
    · cases hnew
    · exact Or.inl ⟨c', hold⟩
  · rcases List.mem_append.mp hx with hold | hnew
    · exact Or.inr ⟨x, hold, rfl, rfl⟩
    · obtain rfl := List.mem_singleton.mp hnew
      exact Or.inl ⟨c, by rw [hc]; rfl⟩

theorem Stamps.append (hS : Stamps h s) :
    Stamps h (s.appended c ⟨id, ⟨op.input, r.output⟩, start, stop, c⟩) where
  called hc' := hS.called ((called_appended hc).mp hc')
  ended he := hS.ended (ended_appended hc he)
  order he hc' := hS.order (ended_appended hc he) ((called_appended hc).mp hc')

/-- The call passes from the client to its entry. -/
theorem Books.append (hB : Books h s) :
    Books h (s.appended c ⟨id, ⟨op.input, r.output⟩, start, stop, c⟩) where
  started hc' := by
    rcases pc_cases Pc.startedAt hc' rfl with ⟨_, hnew⟩ | ⟨_, hold⟩
    · cases hnew
    · exact hB.started hold
  calling hc' := by
    rcases pc_cases Pc.inCall hc' rfl with ⟨_, hnew⟩ | ⟨_, hold⟩
    · cases hnew
    · exact hB.calling hold
  done hc' := by
    rcases pc_cases Pc.done hc' rfl with ⟨_, hnew⟩ | ⟨_, hold⟩
    · cases hnew
    · exact hB.done hold
  logged hx := by
    rcases List.mem_append.mp hx with hold | hnew
    · exact hB.logged hold
    · obtain rfl := List.mem_singleton.mp hnew
      obtain ⟨hinv, hres⟩ := hB.done (show (s.pc c).done = some (id, op, r) by rw [hc]; rfl)
      exact ⟨op, r, hinv, hres, rfl⟩
  covered hmem := by
    obtain ⟨start', hold⟩ := hB.covered hmem
    exact ⟨start', (called_appended hc).mpr hold⟩
  logOnce := by
    -- a call that is still with its client is not in the log
    have hnot : id ∉ s.log.map TimedOp.id :=
      hB.notLogged (show (s.pc c).called = some (id, start) by rw [hc]; rfl)
    show ((s.log ++ [_]).map TimedOp.id).Nodup
    rw [List.map_append, List.nodup_append]
    refine ⟨hB.logOnce, List.nodup_singleton _, ?_⟩
    rintro x hx y hy rfl
    obtain rfl : x = id := List.mem_singleton.mp hy
    exact hnot hx
  notLogged {c' id' start'} hc' := by
    rcases pc_cases Pc.called hc' rfl with ⟨_, hnew⟩ | ⟨hne, hold⟩
    · cases hnew
    · show id' ∉ (s.log ++ [_]).map TimedOp.id
      rw [List.map_append, List.mem_append]
      rintro (hmem | hlast)
      · exact hB.notLogged hold hmem
      · obtain rfl : id' = id := List.mem_singleton.mp hlast
        exact hne (hB.callOnce hold (show (s.pc c).called = some (id', start) by rw [hc]; rfl))
  callOnce h₁ h₂ := by
    rcases pc_cases Pc.called h₁ rfl with ⟨_, hnew⟩ | ⟨_, hold₁⟩
    · cases hnew
    · rcases pc_cases Pc.called h₂ rfl with ⟨_, hnew⟩ | ⟨_, hold₂⟩
      · cases hnew
      · exact hB.callOnce hold₁ hold₂

end Append

end Steps

/-! ## Whole runs -/

/-- The history that was recorded. -/
def hist (tr : List Event) : List (HEvent Op Reply) := history (netPart tr)

/-- What holds between the steps: the run of the service, the stamps, and where the calls are. -/
structure LogOk (tr : List Event) (s : State) : Prop where
  net : Reaches KvSrv.net (netPart tr) s.net
  stamps : Stamps (hist tr) s
  books : Books (hist tr) s

theorem logOk_init : LogOk [] recorded.init where
  net := Run.nil
  stamps :=
    { called := by rintro id start (⟨_, hc⟩ | ⟨_, hx, _⟩) <;> contradiction
      ended := by rintro id stop (⟨_, hc⟩ | ⟨_, hx, _⟩) <;> contradiction
      order := by rintro a b stop start (⟨_, hc⟩ | ⟨_, hx, _⟩) <;> contradiction }
  books :=
    { started := nofun
      calling := nofun
      done := nofun
      logged := nofun
      covered := nofun
      logOnce := List.nodup_nil
      notLogged := nofun
      callOnce := nofun }

theorem hist_snoc_net (tr : List Event) (e : KvSrv.Event) : hist (tr ++ [.net e]) = hist tr ++ e.hist.toList := by
  unfold hist netPart
  rw [filterMap_snoc]
  exact history_snoc _ e

section RunSteps

variable {tr : List Event} {s s' : State} {c : ClientId} {p : Pc}

/-- A client's step that the service does not see. -/
theorem LogOk.client {e : Event} (hL : LogOk tr s) (he : e.ofNet = none)
    (hstarted : ∀ {start}, p.startedAt = some start → start ≤ s.now) (hcall : p.inCall = none)
    (hdone : ∀ y, p.done = some y → (s.pc c).done = some y) (hcalled : p.called = (s.pc c).called)
    (hended : ∀ {id stop}, p.ended = some (id, stop) → s.now ≤ stop ∧ ∃ r, .res id r ∈ hist tr) :
    LogOk (tr ++ [e]) (s.setPc c p) := by
  have hnet : netPart (tr ++ [e]) = netPart tr := filterMap_snoc_none he
  have hhist : hist (tr ++ [e]) = hist tr ++ [] := by
    unfold hist
    rw [hnet, List.append_nil]
  refine ⟨hnet ▸ hL.net, ?_, ?_⟩
  · rw [hhist]
    refine hL.stamps.step (Nat.le_refl _) (fun hc => Or.inl ?_) (fun he' => ?_)
    · rcases called_cases (s := s) hc rfl rfl with hold | hnew
      · exact hold
      · exact Or.inl ⟨c, hcalled ▸ hnew⟩
    · rcases ended_cases (s := s) he' rfl rfl with hold | hnew
      · exact Or.inl hold
      · exact Or.inr (hended hnew)
  · rw [hhist]
    refine hL.books.move rfl rfl rfl hstarted (fun hc => ?_) (fun hd => ?_) (fun y hy => hcalled.trans hy)
      (fun y hy => Or.inl (hcalled ▸ hy)) nofun
    · rcases pc_cases (s := s) Pc.inCall hc rfl with ⟨_, hnew⟩ | ⟨_, hold⟩
      · rw [hcall] at hnew
        cases hnew
      · exact hL.books.calling hold
    · rw [List.append_nil]
      exact hL.books.done (hdone _ hd)

/-- Calls are numbered, so a new call has no stamps yet. -/
theorem LogOk.fresh (hL : LogOk tr s) {id : Nat} (hid : s.net.nextId ≤ id) (op : Op) : .inv id op ∉ hist tr := by
  intro hinv
  obtain ⟨c', hmem⟩ := inv_mem_history.mp hinv
  have hlt := (callsOk hL.net).idLt hmem
  omega

/-- A client calls its Clerk: the stamp is older than the call. -/
theorem LogOk.invoke {start id : Nat} {op : Op} {net' : KvSrv.State} (hL : LogOk tr s) (hc : s.pc c = .started start)
    (hs : KvSrv.Step s.net (.invoke c id op) net') :
    LogOk (tr ++ [.net (.invoke c id op)]) { s.setPc c (.calling start id op) with net := net' } := by
  have hhist : hist (tr ++ [.net (.invoke c id op)]) = hist tr ++ [.inv id op] := hist_snoc_net tr _
  have hstart : start ≤ s.now := hL.books.started (show (s.pc c).startedAt = some start by rw [hc]; rfl)
  have hnone : (s.pc c).called = none := by rw [hc]; rfl
  -- the number of the call is new
  have hfresh : ∀ op, .inv id op ∉ hist tr := by
    cases hs
    exact hL.fresh (Nat.le_refl _)
  refine ⟨?_, ?_, ?_⟩
  · rw [netPart, filterMap_snoc]
    exact hL.net.snoc hs
  · rw [hhist]
    refine hL.stamps.step (Nat.le_refl _) (fun hc' => ?_) (fun he => Or.inl ?_)
    · rcases called_cases (s := s) (c := c) (p := .calling start id op) hc' rfl rfl with hold | hnew
      · exact Or.inl hold
      · obtain ⟨rfl, rfl⟩ := Prod.mk.inj (Option.some.inj hnew)
        -- whatever has ended by the time of the stamp had returned before this invocation
        refine Or.inr ⟨hstart, ⟨op, List.mem_singleton_self _⟩, fun a ha => ?_⟩
        exact ⟨hist tr, _, rfl, ha, op, List.mem_singleton_self _⟩
    · rcases ended_cases (s := s) (c := c) (p := .calling start id op) he rfl rfl with hold | hnew
      · exact hold
      · cases hnew
  · rw [hhist]
    refine hL.books.move (c := c) (p := .calling start id op) rfl rfl rfl nofun (fun hc' => ?_) nofun (fun y hy => ?_)
      (fun y hy => Or.inr ?_) (fun hmem => ?_)
    · rcases pc_cases (s := s) (c := c) (p := .calling start id op) Pc.inCall hc' rfl with ⟨rfl, hnew⟩ | ⟨hne, hold⟩
      · obtain ⟨rfl, rfl⟩ := Prod.mk.inj (Option.some.inj hnew)
        cases hs
        exact ⟨_, Function.update_self .., rfl, rfl⟩
      · exact call_goes_on hs nofun (hL.books.calling hold)
    · rw [hnone] at hy
      cases hy
    · obtain rfl : (id, start) = y := Option.some.inj hy
      constructor
      · intro hmem
        obtain ⟨x, hx, rfl⟩ := List.mem_map.mp hmem
        obtain ⟨op', _, hinv, _⟩ := hL.books.logged hx
        exact hfresh op' hinv
      · intro c' start' hc'
        obtain ⟨_, op', hinv⟩ := hL.stamps.called (Or.inl ⟨c', hc'⟩)
        exact hfresh op' hinv
    · obtain ⟨rfl, rfl⟩ := HEvent.inv.inj (List.mem_singleton.mp hmem)
      exact ⟨start, rfl⟩

/-- The Clerk returns: the stamp is still to come. -/
theorem LogOk.ret {start id id' : Nat} {op op' : Op} {r : Reply} {net' : KvSrv.State} (hL : LogOk tr s)
    (hc : s.pc c = .calling start id' op') (hs : KvSrv.Step s.net (.ret c id op r) net') :
    LogOk (tr ++ [.net (.ret c id op r)]) { s.setPc c (.returned start id' op' r) with net := net' } := by
  have hhist : hist (tr ++ [.net (.ret c id op r)]) = hist tr ++ [.res id r] := hist_snoc_net tr _
  have hsame : (s.pc c).called = some (id', start) := by rw [hc]; rfl
  -- the service returns from the call the client is in
  obtain ⟨call, hcall, rfl, rfl⟩ := hL.books.calling (show (s.pc c).inCall = some (id', op') by rw [hc]; rfl)
  obtain ⟨call', _, hcall', _, rfl, rfl, _, _⟩ := step_ret hs
  obtain rfl := Option.some.inj (hcall.symm.trans hcall')
  have hinv : .inv call.id call.op ∈ hist tr := inv_mem_history.mpr ⟨c, (callsOk hL.net).invoked hcall⟩
  refine ⟨?_, ?_, ?_⟩
  · rw [netPart, filterMap_snoc]
    exact hL.net.snoc hs
  · rw [hhist]
    refine hL.stamps.step (Nat.le_refl _) (fun hc' => Or.inl ?_) (fun he => Or.inl ?_)
    · rcases called_cases (s := s) (c := c) (p := .returned start call.id call.op r) hc' rfl rfl with hold | hnew
      · exact hold
      · exact Or.inl ⟨c, hsame.trans hnew⟩
    · rcases ended_cases (s := s) (c := c) (p := .returned start call.id call.op r) he rfl rfl with hold | hnew
      · exact hold
      · cases hnew
  · rw [hhist]
    refine hL.books.move (c := c) (p := .returned start call.id call.op r) rfl rfl rfl nofun (fun hc' => ?_)
      (fun hd => ?_) (fun y hy => hsame.symm.trans hy) (fun y hy => Or.inl (hsame.trans hy)) nofun
    · rcases pc_cases (s := s) (c := c) (p := .returned start call.id call.op r) Pc.inCall hc' rfl with
        ⟨_, hnew⟩ | ⟨hne, hold⟩
      · cases hnew
      · refine call_goes_on hs ?_ (hL.books.calling hold)
        rintro _ _ _ ⟨⟩
        exact hne rfl
    · obtain ⟨rfl, rfl, rfl⟩ : call.id = _ ∧ call.op = _ ∧ r = _ := by
        simpa only [Pc.done, Option.some.injEq, Prod.mk.injEq] using hd
      exact ⟨List.mem_append_left _ hinv, List.mem_append_right _ (List.mem_singleton_self _)⟩

/-- **One step** of a client, of the service or of the clock. -/
theorem LogOk.step {e : Event} (hL : LogOk tr s) (hs : Step s e s') : LogOk (tr ++ [e]) s' := by
  cases hs with
  | @clock d =>
      have hnet : netPart (tr ++ [.clock d]) = netPart tr := filterMap_snoc_none rfl
      refine ⟨hnet ▸ hL.net, ?_, ?_⟩
      · unfold hist
        rw [hnet]
        exact hL.stamps.quiet rfl rfl (Nat.le_add_right ..)
      · unfold hist
        rw [hnet]
        exact hL.books.quiet rfl rfl (Nat.le_add_right ..) id
  | @start c hc =>
      refine hL.client rfl ?_ rfl nofun ?_ nofun
      · rintro start ⟨⟩
        exact Nat.le_refl _
      · rw [hc]
        rfl
  | invoke hc hstep => exact hL.invoke hc hstep
  | ret hc hstep => exact hL.ret hc hstep
  -- a step of the service that is neither the beginning nor the end of a call
  | @other e net' hquiet hstep =>
      have hhist : hist (tr ++ [.net e]) = hist tr := by
        rw [hist_snoc_net, hquiet]
        exact List.append_nil _
      refine ⟨?_, ?_, ?_⟩
      · rw [netPart, filterMap_snoc]
        exact hL.net.snoc hstep
      · rw [hhist]
        exact hL.stamps.quiet rfl rfl (Nat.le_refl _)
      · rw [hhist]
        refine hL.books.quiet rfl rfl (Nat.le_refl _) (call_goes_on hstep ?_)
        rintro _ _ _ rfl
        cases hquiet
  | @stop c start id op r hc =>
      refine hL.client rfl nofun rfl ?_ ?_ ?_
      · intro y hy
        rw [hc]
        exact hy
      · rw [hc]
        rfl
      -- the second look at the clock comes after the return, which is in the history
      · rintro _ _ ⟨⟩
        exact ⟨Nat.le_refl _, r, (hL.books.done (show (s.pc c).done = some (id, op, r) by rw [hc]; rfl)).2⟩
  | @append c start stop id op r hc =>
      have hnet : netPart (tr ++ [.append c]) = netPart tr := filterMap_snoc_none rfl
      refine ⟨hnet ▸ hL.net, ?_, ?_⟩
      · unfold hist
        rw [hnet]
        exact hL.stamps.append hc
      · unfold hist
        rw [hnet]
        exact hL.books.append hc

/-- **The log of every run.** -/
theorem logOk (hrun : Reaches recorded tr s) : LogOk tr s :=
  Reaches.invariant (P := LogOk) logOk_init (fun _ _ _ _ _ ih hs => ih.step hs) hrun

end RunSteps

/-! ## The checker -/

theorem input_key (op : Op) : op.input.key = op.key := by
  cases op <;> rfl

theorem serveLogged_eq (kv : KVServer) (op : Op) :
    serveLogged kv op = ((kv.dispatch op).1, ⟨op.input, (kv.dispatch op).2.output⟩) := by
  cases op <;> rfl

/-- What a client is told of a request is accepted by the model where the server's own reply is. -/
theorem check_told {kv : KVServer} {op : Op} {told : Reply} (hex : Explains told (kv.dispatch op).2)
    (hno : op.input.op = 1 → told.output.err ≠ .ErrNoKey) :
    check (stateOf kv op.key) [⟨op.input, told.output⟩] = some (stateOf (kv.dispatch op).1 op.key) := by
  rcases check_serveLogged kv op with ⟨_, hok⟩ | ⟨horphan, _⟩
  · rw [serveLogged_eq] at hok
    rcases hex with rfl | ⟨rfl, hsaid⟩
    · exact hok
    · -- `ErrMaybe` is accepted in both branches of a Put, with the state of the branch
      cases op with
      | get args => rcases hsaid with hsaid | hsaid <;> cases hsaid
      | put args =>
          rw [← hok]
          by_cases hv : (stateOf kv args.key).version = args.version
          · rcases hsaid with hsaid | hsaid <;>
              simp_all [check, kvStep, Op.input, Reply.output, Op.key]
          · rcases hsaid with hsaid | hsaid <;>
              simp_all [check, kvStep, Op.input, Reply.output, Op.key]
  · cases op with
    | get args => exact absurd horphan id
    | put args =>
        have hsaid : (kv.dispatch (.put args)).2 = .put ⟨.ErrNoKey⟩ := by
          simp [KVServer.dispatch, KVServer.put, horphan.1, horphan.2]
        rw [hsaid] at hex
        rcases hex with rfl | ⟨_, hbad | hbad⟩
        · exact absurd rfl (hno rfl)
        · cases hbad
        · cases hbad

/-- An order of calls in which the server says what the clients were told is one that the model accepts, key by
    key. -/
theorem check_inOrder {f : LinOp Op Reply → Option TimedOp} {L : List (LinOp Op Reply)}
    (hlegal : kvSpec.Legal makeKVServer L)
    (hf : ∀ o ∈ L, ∃ x told, f o = some x ∧ x.operation = ⟨o.op.input, told.output⟩ ∧ Explains told o.ret
      ∧ (o.op.input.op = 1 → told.output.err ≠ .ErrNoKey)) (key : String) :
    check kvInit (((L.filterMap f).filter (fun x => x.operation.input.key = key)).map TimedOp.operation)
      = some (stateOf (kvSpec.after makeKVServer L) key) := by
  induction L using List.reverseRecOn with
  | nil => rfl
  | append_singleton L o ih =>
      rw [legal_append] at hlegal
      obtain ⟨hbefore, hlast, _⟩ := hlegal
      obtain ⟨x, told, hx, hrec, hex, hno⟩ := hf o (List.mem_append_right _ (List.mem_singleton_self _))
      have hold := ih hbefore (fun o' ho' => hf o' (List.mem_append_left _ ho'))
      rw [filterMap_snoc, hx, Option.toList_some, List.filter_append, List.map_append, check_append, hold,
        Option.bind_some, after_append, after_cons, after_nil]
      by_cases hkey : o.op.key = key
      · subst hkey
        have hin : x.operation.input.key = o.op.key := by rw [hrec, input_key]
        rw [List.filter_cons_of_pos (by simpa using hin), List.filter_nil, List.map_singleton, hrec]
        exact check_told (hlast ▸ hex) hno
      · have hout : ¬ x.operation.input.key = key := by rwa [hrec, input_key]
        rw [List.filter_cons_of_neg (by simpa using hout), List.filter_nil, List.map_nil]
        have hframe := stateOf_serve_ne (kvSpec.after makeKVServer L) hkey
        rw [serveLogged_eq] at hframe
        exact congrArg some hframe.symm

/-- The model accepts no Put that was told `ErrNoKey`. -/
theorem check_no_ErrNoKey {st : KvState} {ops : List Operation} (hok : (check st ops).isSome = true) :
    ∀ o ∈ ops, o.input.op = 1 → o.output.err ≠ .ErrNoKey := by
  induction ops generalizing st with
  | nil => nofun
  | cons o rest ih =>
      intro o' ho' hput herr
      rw [check] at hok
      split at hok
      · rename_i st' hstep
        rcases List.mem_cons.mp ho' with rfl | hrest
        · have haccept : (kvStep st o'.input o'.output).1 = true := by rw [hstep]
          simp [kvStep, hput, herr] at haccept
          split at haccept <;> simp at haccept
        · exact ih hok o' hrest hput herr
      · cases hok

section Verdict

variable {tr : List Event} {s : State} {L : List (LinOp Op Reply)}

/-- When no client is at a call any more, every call of a linearization is in the log, as it was answered. -/
theorem LogOk.entry (hok : LogOk tr s) (hidle : ∀ c, s.pc c = .idle)
    (hL : Linearization kvSpec Explains (hist tr) L) {o : LinOp Op Reply} (ho : o ∈ L) :
    ∃ x ∈ s.log, ∃ told, entryFor TimedOp.id s.log o = some x ∧ x.operation = ⟨o.op.input, told.output⟩
      ∧ Explains told o.ret := by
  have hinv := hL.invoked ho
  obtain ⟨start, hc⟩ := hok.books.covered hinv
  obtain ⟨c, hbad⟩ | ⟨x, hx, hid, _⟩ := hc
  · rw [hidle c] at hbad
    cases hbad
  · obtain ⟨op, told, hop, htold, hrec⟩ := hok.books.logged hx
    rw [hid] at hop htold
    -- a number belongs to one call, with one request
    obtain ⟨c, hmem⟩ := inv_mem_history.mp hinv
    obtain ⟨c', hmem'⟩ := inv_mem_history.mp hop
    obtain ⟨_, rfl⟩ := (callsOk hok.net).unique hmem hmem'
    obtain ⟨o', ho', hid', hex⟩ := hL.complete htold
    obtain rfl := eq_of_id hL.nodup ho' ho hid'
    exact ⟨x, hx, told, entryFor_eq hok.books.logOnce hx hid, hrec, hex⟩

/-- The log in the order of a linearization is an order that the checker may find. -/
theorem LogOk.accepts (hok : LogOk tr s) (hidle : ∀ c, s.pc c = .idle)
    (hL : Linearization kvSpec Explains (hist tr) L)
    (hno : ∀ x ∈ s.log, x.operation.input.op = 1 → x.operation.output.err ≠ .ErrNoKey) :
    Orderable s.log := by
  refine orderable_iff.mpr (fun x _ => ?_)
  have hperm : (inOrder TimedOp.id s.log L).Perm s.log := by
    refine inOrder_perm hL.nodup hok.books.logOnce (fun x hx => ?_)
    obtain ⟨_, told, _, htold, _⟩ := hok.books.logged hx
    obtain ⟨o, ho, hid, _⟩ := hL.complete htold
    exact ⟨o, ho, hid⟩
  have htimes : (inOrder TimedOp.id s.log L).Pairwise (fun x y => ¬ y.ret < x.call) := by
    refine hL.inOrder_pairwise (fun x hx y hy hlt => ?_)
    exact (hok.stamps.order (Or.inr ⟨y, hy, rfl, rfl⟩) (Or.inr ⟨x, hx, rfl, rfl⟩)).resolve_right
      (Nat.not_le_of_lt hlt)
  refine ⟨_, hperm.filter _, htimes.filter _, ?_⟩
  have hcheck := check_inOrder (f := entryFor TimedOp.id s.log) hL.legal (fun o ho => by
    obtain ⟨x, hx, told, hentry, hrec, hex⟩ := hok.entry hidle hL ho
    have hput := hno x hx
    rw [hrec] at hput
    exact ⟨x, told, hentry, hrec, hex, hput⟩) x.operation.input.key
  exact Option.isSome_iff_exists.mpr ⟨_, hcheck⟩

end Verdict

/-- **What the checker says of the service.** When the clients of a test are done, what they recorded can be ordered
    as porcupine wants it, whatever the network did short of a late execution, exactly if no Clerk was told `ErrNoKey`
    for a Put. `checkPorcupine` lets a test go on in that case, and where porcupine runs out of time. -/
theorem checkPorcupine_accepts_iff (tr : List Event) (s : State) (hrun : Reaches recorded tr s)
    (hlate : LateFree (netPart tr)) (hfew : ∀ k, (appliedOn (netPart tr) k).length ≤ 2 ^ 64)
    (hidle : ∀ c, s.pc c = .idle) :
    (Orderable s.log ↔ ∀ x ∈ s.log, x.operation.input.op = 1 → x.operation.output.err ≠ .ErrNoKey)
    ∧ ∀ res, Answers s.log res → (checkPorcupine res = true ↔
        res = .unknown ∨ ∀ x ∈ s.log, x.operation.input.op = 1 → x.operation.output.err ≠ .ErrNoKey) := by
  have hok := logOk hrun
  have hiff : Orderable s.log ↔ ∀ x ∈ s.log, x.operation.input.op = 1 → x.operation.output.err ≠ .ErrNoKey := by
    constructor
    · intro hcheck x hx
      obtain ⟨order, hperm, _, haccept⟩ := orderable_iff.mp hcheck x hx
      have hmem : x ∈ order := hperm.mem_iff.mpr (List.mem_filter.mpr ⟨hx, decide_eq_true rfl⟩)
      exact check_no_ErrNoKey haccept _ (List.mem_map_of_mem hmem)
    · intro hno
      obtain ⟨L, hL⟩ := exists_linOk hok.net hlate hfew
      exact hok.accepts hidle hL.lin hno
  refine ⟨hiff, fun res hanswer => ?_⟩
  rw [← hiff]
  cases res with
  | unknown => simp [checkPorcupine]
  | ok => simpa [checkPorcupine] using hanswer.ok rfl
  | illegal => simpa [checkPorcupine] using hanswer.illegal rfl

/-- A Put whose first reply is lost; the retry comes back with `ErrMaybe`. -/
def retriedTrace : List Event :=
  [.start 0, .net (.invoke 0 0 (.put ⟨"k", "x", 0⟩)), .net (.serve 0 0 (.put ⟨"k", "x", 0⟩) (.put ⟨.OK⟩)),
   .net (.lose 0), .net (.serve 0 0 (.put ⟨"k", "x", 0⟩) (.put ⟨.ErrVersion⟩)),
   .net (.ret 0 0 (.put ⟨"k", "x", 0⟩) (.put ⟨.ErrMaybe⟩)), .clock 3, .stop 0, .append 0]

/-- At the end of it the client is done, and its operation is in the log. -/
theorem retriedTrace_reaches : ∃ s, Reaches recorded retriedTrace s ∧ (∀ c, s.pc c = .idle)
    ∧ s.log = [⟨0, ⟨⟨1, "k", "x", 0⟩, { err := .ErrMaybe }⟩, 0, 3, 0⟩] := by
  have hstart : Reaches recorded [.start 0] _ := Run.nil.snoc (Step.start rfl)
  have hinvoke := hstart.snoc (e := (.net (.invoke 0 0 (.put ⟨"k", "x", 0⟩)) : Event))
    (Step.invoke rfl ((net_computedBy _ _ _).mpr rfl))
  have hserve := hinvoke.snoc (e := (.net (.serve 0 0 (.put ⟨"k", "x", 0⟩) (.put ⟨.OK⟩)) : Event))
    (Step.other rfl ((net_computedBy _ _ _).mpr rfl))
  have hlose := hserve.snoc (e := (.net (.lose 0) : Event)) (Step.other rfl ((net_computedBy _ _ _).mpr rfl))
  have hserve' := hlose.snoc (e := (.net (.serve 0 0 (.put ⟨"k", "x", 0⟩) (.put ⟨.ErrVersion⟩)) : Event))
    (Step.other rfl ((net_computedBy _ _ _).mpr rfl))
  have hret := hserve'.snoc (e := (.net (.ret 0 0 (.put ⟨"k", "x", 0⟩) (.put ⟨.ErrMaybe⟩)) : Event))
    (Step.ret rfl ((net_computedBy _ _ _).mpr rfl))
  have hclock := hret.snoc (e := (.clock 3 : Event)) Step.clock
  have hstop := hclock.snoc (e := (.stop 0 : Event)) (Step.stop rfl)
  have happend := hstop.snoc (e := (.append 0 : Event)) (Step.append rfl)
  refine ⟨_, happend, fun c => ?_, rfl⟩
  cases c with
  | zero => rfl
  | succ n => rfl

theorem checkPorcupine_accepts_retriedTrace : ∃ s, Reaches recorded retriedTrace s
    ∧ LateFree (netPart retriedTrace) ∧ s.log.length = 1 ∧ Orderable s.log ∧ Answers s.log .ok := by
  obtain ⟨s, hrun, hidle, hlog⟩ := retriedTrace_reaches
  have hlate : LateFree (netPart retriedTrace) := by
    intro id op r hmem
    simp [netPart, retriedTrace, Event.ofNet] at hmem
  have hfew : ∀ k, (appliedOn (netPart retriedTrace) k).length ≤ 2 ^ 64 := by
    intro k
    have hlen : (appliedOn (netPart retriedTrace) k).length ≤ (applied (netPart retriedTrace)).length :=
      List.length_filter_le ..
    have hone : (applied (netPart retriedTrace)).length = 1 := by decide
    omega
  refine ⟨s, hrun, hlate, by rw [hlog]; rfl, ?_⟩
  have horder : Orderable s.log := by
    refine (checkPorcupine_accepts_iff _ s hrun hlate hfew hidle).1.mpr ?_
    rw [hlog]
    decide
  exact ⟨horder, fun _ => horder, nofun⟩

end OpLog
end KvSrv
end DistributedLabs
