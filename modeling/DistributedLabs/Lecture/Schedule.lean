import DistributedLabs.Lib.Pool
import DistributedLabs.Lib.Transition
import Mathlib.Data.List.Perm.Basic
import Mathlib.Data.List.Nodup

/-!
# `Lecture.Schedule` — tasks handed out over unbuffered channels

`Schedule` of `lec-5-go-pattern/deadlock.go`: a worker for every server that arrives, one channel for the tasks and
one for the notices that a task is done. Both are unbuffered, so a send and its receive are one step. `Schedule` sends
all the tasks before it receives the first notice, and a worker does not take a second task before its first notice
is received. Every worker gets one task at most, then, and `Schedule` returns if and only if there are servers enough
(`schedule_ends`).

The goroutine that ranges over the channel of servers is there only as the step in which a server arrives. Whether it
ends is up to the caller, who closes that channel or does not.

## The argument

* `ScheduleOk` is the invariant: a task that has been sent is being called or has been called by one worker, and as many
  workers as there are tasks without a notice are between the two.
* `State.work` goes down by one with every step, so a run has no choice in how long it is (`schedule_length`).
* What a state without a step looks like is worked out in the lemmas `stuck_…`: either `Schedule` has returned and so
  have the workers, or it is at a send with every worker at its notice. Which of the two it is depends on the numbers of
  tasks and servers alone.
-/

namespace DistributedLabs
namespace Lecture

open Lib

/-! ## The code -/

/-- Where `Schedule` is: in its first loop, in its second loop, or past them. -/
inductive Main where
  | sending (task : Nat)
  | collecting (i : Nat)
  | returned
deriving DecidableEq, Repr

/-- Where `runTasks` is: at `range work`, in `call`, or at `done <- true`. -/
inductive Pc where
  | ready
  | calling (task : Nat)
  | reporting
  | exited
deriving DecidableEq, Repr

/-- A run of `runTasks`. -/
structure Worker where
  srv : String
  pc : Pc
deriving DecidableEq, Repr

/-- `servers` is what the channel of that name has yet to bring. -/
structure State where
  servers : List String
  main : Main
  workers : List Worker
deriving DecidableEq, Repr

/-- The steps. `hand` and `collect` are of `Schedule` and a worker together. -/
inductive Event where
  | arrive (srv : String)
  | hand (i task : Nat)
  | close
  | call (srv : String) (i task : Nat)
  | collect (i : Nat)
  | finish
  | exit (i : Nat)
deriving DecidableEq, Repr

/-- Worker `i` goes on at `pc`. -/
def State.setPc (s : State) (i : Nat) (p : Worker) (pc : Pc) : State :=
  { s with workers := s.workers.set i { p with pc := pc } }

/-- A step of `Schedule`, of a worker, or of both. -/
inductive Step (numTask : Nat) : State → Event → State → Prop where
  | arrive {s srv rest} : s.servers = srv :: rest →
      Step numTask s (.arrive srv) { s with servers := rest, workers := s.workers ++ [⟨srv, .ready⟩] }
  -- the first loop of `Schedule`, and what follows it
  | hand {s i p task} : s.main = .sending task → task < numTask → s.workers[i]? = some p → p.pc = .ready →
      Step numTask s (.hand i task) { s.setPc i p (.calling task) with main := .sending (task + 1) }
  | close {s task} : s.main = .sending task → ¬ task < numTask →
      Step numTask s .close { s with main := .collecting 0 }
  -- the workers
  | call {s i p task} : s.workers[i]? = some p → p.pc = .calling task →
      Step numTask s (.call p.srv i task) (s.setPc i p .reporting)
  | exit {s i p} : (∀ task, s.main ≠ .sending task) → s.workers[i]? = some p → p.pc = .ready →
      Step numTask s (.exit i) (s.setPc i p .exited)
  -- the second loop
  | collect {s i p n} : s.main = .collecting n → n < numTask → s.workers[i]? = some p → p.pc = .reporting →
      Step numTask s (.collect i) { s.setPc i p .ready with main := .collecting (n + 1) }
  | finish {s n} : s.main = .collecting n → ¬ n < numTask →
      Step numTask s .finish { s with main := .returned }

/-- `Schedule(servers, numTask, call)`, with the servers that come over the channel. -/
def schedule (servers : List String) (numTask : Nat) : LTS State Event where
  init := { servers := servers, main := .sending 0, workers := [] }
  step := Step numTask

/-- The call that has returned in a step. -/
def callOf : Event → Option (String × Nat)
  | .call srv _ task => some (srv, task)
  | _ => none

/-- The calls that have returned, with their server and their task. -/
def calls (tr : List Event) : List (String × Nat) := tr.filterMap callOf

/-! ## Who has which task -/

/-- The tasks that have been sent. -/
def Main.handed (numTask : Nat) : Main → Nat
  | .sending task => task
  | _ => numTask

/-- The notices that have been received. -/
def Main.collected (numTask : Nat) : Main → Nat
  | .sending _ => 0
  | .collecting i => i
  | .returned => numTask

/-- Between its task and its notice. -/
def Worker.busy (p : Worker) : Nat :=
  match p.pc with
  | .calling _ => 1
  | .reporting => 1
  | _ => 0

/-- Whether the worker is calling the task. -/
def Worker.has (task : Nat) (p : Worker) : Nat := if p.pc = .calling task then 1 else 0

/-- A task that has been sent was called, or is being called, by one worker; there are as many workers as tasks that
have been sent. -/
structure ScheduleOk (servers : List String) (numTask : Nat) (tr : List Event) (s : State) : Prop where
  arrived : s.workers.map Worker.srv ++ s.servers = servers
  handed : s.main.handed numTask ≤ numTask
  enough : s.main.handed numTask ≤ s.workers.length
  notices : (s.workers.map Worker.busy).sum + s.main.collected numTask = s.main.handed numTask
  once : ∀ task, ((calls tr).map Prod.snd).count task + (s.workers.map (Worker.has task)).sum =
    if task < s.main.handed numTask then 1 else 0
  exits : ∀ (i : Nat) (p : Worker), s.workers[i]? = some p → p.pc = .exited → ∀ task, s.main ≠ .sending task
  callers : ∀ c ∈ calls tr, c.1 ∈ servers

section Invariant

variable {servers : List String} {numTask : Nat} {tr : List Event} {s s' : State} {e : Event} {i : Nat} {p : Worker}

theorem schedule_init : ScheduleOk servers numTask [] (schedule servers numTask).init := by
  refine ⟨rfl, Nat.zero_le _, Nat.zero_le _, rfl, fun _ => rfl, ?_, ?_⟩
  · intro i p hp
    cases hp
  · intro c hc
    cases hc

theorem map_srv_set (hp : s.workers[i]? = some p) (pc : Pc) :
    (s.setPc i p pc).workers.map Worker.srv = s.workers.map Worker.srv :=
  map_set_same hp rfl

/-- A worker goes on, and `Schedule` with it or not. What the worker and `Schedule` account for together is left as
it was, task by task. -/
theorem ScheduleOk.move (h : ScheduleOk servers numTask tr s) (hp : s.workers[i]? = some p) {pc : Pc} {main : Main}
    (hle : main.handed numTask ≤ numTask) (henough : main.handed numTask ≤ s.workers.length)
    (hbusy : Worker.busy { p with pc := pc } + main.collected numTask + s.main.handed numTask =
      p.busy + s.main.collected numTask + main.handed numTask)
    (honce : ∀ task, ((calls (tr ++ [e])).map Prod.snd).count task + Worker.has task { p with pc := pc } +
        (if task < s.main.handed numTask then 1 else 0) =
      ((calls tr).map Prod.snd).count task + p.has task + (if task < main.handed numTask then 1 else 0))
    (hexits : (∀ task, s.main ≠ .sending task) → ∀ task, main ≠ .sending task)
    (hexit : pc = .exited → ∀ task, main ≠ .sending task) (hcallers : ∀ c, callOf e = some c → c.1 = p.srv) :
    ScheduleOk servers numTask (tr ++ [e]) { s.setPc i p pc with main := main } := by
  -- the worker was started for a server that has arrived
  have hsrv : p.srv ∈ servers := by
    rw [← h.arrived]
    apply List.mem_append_left
    exact List.mem_map_of_mem (List.mem_of_getElem? hp)
  constructor
  · show (s.setPc i p pc).workers.map Worker.srv ++ s.servers = servers
    rw [map_srv_set hp]
    exact h.arrived
  · exact hle
  · show _ ≤ (s.workers.set i _).length
    rw [List.length_set]
    exact henough
  -- one summand changes, by as much as `Schedule` accounts for
  · have hset := sum_map_set (w := Worker.busy) hp { p with pc := pc }
    have hnotices := h.notices
    show ((s.workers.set i _).map Worker.busy).sum + _ = _
    dsimp only
    omega
  · intro task
    have hset := sum_map_set (w := Worker.has task) hp { p with pc := pc }
    have hold := h.once task
    have hnew := honce task
    show _ + ((s.workers.set i _).map (Worker.has task)).sum = _
    dsimp only
    omega
  · intro j q hq hexited
    rcases set_cases hq with ⟨rfl, rfl⟩ | ⟨_, hq⟩
    · exact hexit hexited
    · exact hexits (h.exits j q hq hexited)
  · intro c hc
    unfold calls at hc
    rw [filterMap_snoc, List.mem_append] at hc
    rcases hc with hc | hc
    · exact h.callers c hc
    · rw [hcallers c (Option.mem_toList.mp hc)]
      exact hsrv

theorem calls_snoc_none (h : callOf e = none) : calls (tr ++ [e]) = calls tr := filterMap_snoc_none h

theorem busy_le_length (l : List Worker) : (l.map Worker.busy).sum ≤ l.length := by
  induction l with
  | nil => exact Nat.le_refl _
  | cons p l ih =>
      have hp : p.busy ≤ 1 := by
        unfold Worker.busy
        split <;> omega
      show p.busy + (l.map Worker.busy).sum ≤ l.length + 1
      omega

theorem busy_eq_length {l : List Worker} (h : ∀ (i : Nat) (p : Worker), l[i]? = some p → p.pc = .reporting) :
    (l.map Worker.busy).sum = l.length := by
  induction l with
  | nil => rfl
  | cons p l ih =>
      have hp : p.busy = 1 := by
        unfold Worker.busy
        rw [h 0 p rfl]
      have hl := ih fun i q hq => h (i + 1) q hq
      show p.busy + (l.map Worker.busy).sum = l.length + 1
      omega

/-- A worker that is ready is one more than those that have a task. -/
theorem busy_lt_length {l : List Worker} (hp : l[i]? = some p) (hfree : p.busy = 0) :
    (l.map Worker.busy).sum < l.length := by
  have hset := sum_map_set (w := Worker.busy) hp { p with pc := .reporting }
  have hle := busy_le_length (l.set i { p with pc := .reporting })
  have hone : Worker.busy { p with pc := .reporting } = 1 := rfl
  rw [List.length_set] at hle
  omega

theorem has_of_pc_ne (h : ∀ task, p.pc ≠ .calling task) (task : Nat) : p.has task = 0 := if_neg (h task)

theorem busy_ready (hpc : p.pc = .ready) : p.busy = 0 := by simp [Worker.busy, hpc]

theorem busy_calling {task : Nat} (hpc : p.pc = .calling task) : p.busy = 1 := by simp [Worker.busy, hpc]

theorem busy_reporting (hpc : p.pc = .reporting) : p.busy = 1 := by simp [Worker.busy, hpc]

/-! What each step does. -/

/-- A server arrives, and its worker is ready. -/
theorem ScheduleOk.arrive (h : ScheduleOk servers numTask tr s) {srv : String} {rest : List String}
    (hservers : s.servers = srv :: rest) :
    ScheduleOk servers numTask (tr ++ [.arrive srv])
      { s with servers := rest, workers := s.workers ++ [⟨srv, .ready⟩] } := by
  constructor
  · show (s.workers ++ [({ srv := srv, pc := .ready } : Worker)]).map Worker.srv ++ rest = servers
    rw [List.map_append, List.append_assoc, ← h.arrived, hservers]
    rfl
  · exact h.handed
  · show _ ≤ (s.workers ++ [_]).length
    rw [List.length_append]
    exact Nat.le_add_right_of_le h.enough
  · show ((s.workers ++ [_]).map Worker.busy).sum + _ = _
    rw [List.map_append, List.sum_append]
    exact h.notices
  · intro task
    rw [calls_snoc_none rfl]
    show _ + ((s.workers ++ [_]).map (Worker.has task)).sum = _
    rw [List.map_append, List.sum_append]
    exact h.once task
  · intro j q hq hexited
    rcases snoc_cases hq with ⟨_, rfl⟩ | hq
    · cases hexited
    · exact h.exits j q hq hexited
  · rw [calls_snoc_none rfl]
    exact h.callers

/-- A worker that is ready has had no task, so there is one for the next task too. -/
theorem ScheduleOk.hand (h : ScheduleOk servers numTask tr s) {task : Nat} (hmain : s.main = .sending task)
    (htask : task < numTask) (hp : s.workers[i]? = some p) (hpc : p.pc = .ready) :
    ScheduleOk servers numTask (tr ++ [.hand i task])
      { s.setPc i p (.calling task) with main := .sending (task + 1) } := by
  -- the worker is ready, so fewer tasks than workers have been sent
  have hroom := busy_lt_length hp (busy_ready hpc)
  have hnotices := h.notices
  rw [hmain] at hnotices
  change (s.workers.map Worker.busy).sum + 0 = task at hnotices
  apply h.move hp
  · exact htask
  · show task + 1 ≤ s.workers.length
    omega
  · rw [hmain, busy_ready hpc]
    show 1 + 0 + task = 0 + 0 + (task + 1)
    omega
  · intro task'
    rw [calls_snoc_none rfl, has_of_pc_ne (p := p) (by simp [hpc]), hmain]
    show _ + (if Pc.calling task = .calling task' then 1 else 0) + (if task' < task then 1 else 0) =
      _ + 0 + (if task' < task + 1 then 1 else 0)
    by_cases heq : task = task'
    · simp [heq]
    · have hiff : task' < task + 1 ↔ task' < task := by omega
      simp [heq, hiff]
  · intro hclosed
    exact absurd hmain (hclosed task)
  · intro hexit
    cases hexit
  · intro c hc
    cases hc

theorem ScheduleOk.close (h : ScheduleOk servers numTask tr s) {task : Nat} (hmain : s.main = .sending task)
    (htask : ¬ task < numTask) : ScheduleOk servers numTask (tr ++ [.close]) { s with main := .collecting 0 } := by
  have hhanded := h.handed
  have henough := h.enough
  have hnotices := h.notices
  have honce := h.once
  rw [hmain] at hhanded henough hnotices honce
  change task ≤ numTask at hhanded
  obtain rfl : task = numTask := by omega
  refine ⟨h.arrived, Nat.le_refl _, henough, hnotices, ?_, nofun, ?_⟩
  · rw [calls_snoc_none rfl]
    exact honce
  · rw [calls_snoc_none rfl]
    exact h.callers

/-- The task goes from those that are being called to those that have been. -/
theorem ScheduleOk.call (h : ScheduleOk servers numTask tr s) {task : Nat} (hp : s.workers[i]? = some p)
    (hpc : p.pc = .calling task) :
    ScheduleOk servers numTask (tr ++ [.call p.srv i task]) (s.setPc i p .reporting) := by
  apply h.move hp h.handed h.enough
  · rw [busy_calling hpc]
    rfl
  · intro task'
    have hcalls : calls (tr ++ [Event.call p.srv i task]) = calls tr ++ [(p.srv, task)] := filterMap_snoc ..
    rw [hcalls, List.map_append, List.count_append, has_of_pc_ne (by simp)]
    unfold Worker.has
    rw [hpc]
    show _ + [task].count task' + 0 + _ = _
    by_cases heq : task = task'
    · simp [heq]
    · simp [heq]
  · exact id
  · intro hexit
    cases hexit
  · intro c hc
    cases hc
    rfl

theorem ScheduleOk.exit (h : ScheduleOk servers numTask tr s) (hclosed : ∀ task, s.main ≠ .sending task)
    (hp : s.workers[i]? = some p) (hpc : p.pc = .ready) :
    ScheduleOk servers numTask (tr ++ [.exit i]) (s.setPc i p .exited) := by
  apply h.move hp h.handed h.enough
  · rw [busy_ready hpc]
    rfl
  · intro task'
    rw [calls_snoc_none rfl, has_of_pc_ne (p := p) (by simp [hpc]), has_of_pc_ne (by simp)]
  · exact id
  · exact fun _ => hclosed
  · intro c hc
    cases hc

theorem ScheduleOk.collect (h : ScheduleOk servers numTask tr s) {n : Nat} (hmain : s.main = .collecting n)
    (hp : s.workers[i]? = some p) (hpc : p.pc = .reporting) :
    ScheduleOk servers numTask (tr ++ [.collect i]) { s.setPc i p .ready with main := .collecting (n + 1) } := by
  have henough := h.enough
  rw [hmain] at henough
  apply h.move hp
  · exact Nat.le_refl numTask
  · exact henough
  · rw [hmain, busy_reporting hpc]
    show 0 + (n + 1) + numTask = 1 + n + numTask
    omega
  · intro task'
    rw [calls_snoc_none rfl, has_of_pc_ne (p := p) (by simp [hpc]), has_of_pc_ne (by simp), hmain]
    rfl
  · intro _ task heq
    cases heq
  · intro hexit
    cases hexit
  · intro c hc
    cases hc

theorem ScheduleOk.finish (h : ScheduleOk servers numTask tr s) {n : Nat} (hmain : s.main = .collecting n)
    (hn : ¬ n < numTask) : ScheduleOk servers numTask (tr ++ [.finish]) { s with main := .returned } := by
  have henough := h.enough
  have hnotices := h.notices
  have honce := h.once
  rw [hmain] at henough hnotices honce
  change (s.workers.map Worker.busy).sum + n = numTask at hnotices
  refine ⟨h.arrived, Nat.le_refl _, henough, ?_, ?_, nofun, ?_⟩
  · show (s.workers.map Worker.busy).sum + numTask = numTask
    omega
  · rw [calls_snoc_none rfl]
    exact honce
  · rw [calls_snoc_none rfl]
    exact h.callers

/-- **One step**, by the cases above. -/
theorem ScheduleOk.step (h : ScheduleOk servers numTask tr s) (hstep : Step numTask s e s') :
    ScheduleOk servers numTask (tr ++ [e]) s' := by
  cases hstep with
  | arrive hservers => exact h.arrive hservers
  | hand hmain htask hp hpc => exact h.hand hmain htask hp hpc
  | close hmain htask => exact h.close hmain htask
  | call hp hpc => exact h.call hp hpc
  | exit hclosed hp hpc => exact h.exit hclosed hp hpc
  | collect hmain _ hp hpc => exact h.collect hmain hp hpc
  | finish hmain hn => exact h.finish hmain hn

/-- The whole run. -/
theorem schedule_ok (h : Reaches (schedule servers numTask) tr s) : ScheduleOk servers numTask tr s :=
  Reaches.invariant (P := ScheduleOk servers numTask) schedule_init (fun _ _ _ _ _ ih hstep => ih.step hstep) h

/-! ## Every run is short -/

/-- What `Schedule` has yet to do. -/
def Main.work (numTask : Nat) : Main → Nat
  | .sending task => 3 * (numTask - task) + 2
  | .collecting _ => 1
  | .returned => 0

/-- What a worker does before it is back at `range work`, and its return. -/
def Worker.work (p : Worker) : Nat :=
  match p.pc with
  | .ready => 1
  | .calling _ => 3
  | .reporting => 2
  | .exited => 0

/-- A task that is handed moves its call and its notice from `Schedule` to the worker. -/
def State.work (numTask : Nat) (s : State) : Nat :=
  2 * s.servers.length + s.main.work numTask + (s.workers.map Worker.work).sum

theorem work_set (numTask : Nat) (hp : s.workers[i]? = some p) (pc : Pc) (main : Main) :
    State.work numTask { s.setPc i p pc with main := main } + s.main.work numTask + p.work =
      s.work numTask + main.work numTask + Worker.work { p with pc := pc } := by
  have hset := sum_map_set (w := Worker.work) hp { p with pc := pc }
  show 2 * s.servers.length + main.work numTask + ((s.workers.set i _).map Worker.work).sum + _ + _ = _
  unfold State.work
  omega

/-- **Every step is one of work.** -/
theorem step_work (hstep : Step numTask s e s') : s'.work numTask + 1 = s.work numTask := by
  cases hstep with
  | @arrive srv rest hservers =>
      show 2 * rest.length + s.main.work numTask + ((s.workers ++ [_]).map Worker.work).sum + 1 = _
      unfold State.work
      rw [List.map_append, List.sum_append, List.map_singleton, List.sum_singleton, hservers, List.length_cons]
      show _ + (_ + 1) + 1 = _
      omega
  -- three units leave `Schedule`: one is spent, and the worker gets two for its call and its notice
  | @hand i p task hmain htask hp hpc =>
      have hset := work_set numTask hp (.calling task) (.sending (task + 1))
      rw [hmain] at hset
      unfold Worker.work at hset
      rw [hpc] at hset
      change _ + (3 * (numTask - task) + 2) + 1 = _ + (3 * (numTask - (task + 1)) + 2) + 3 at hset
      omega
  | @close task hmain htask =>
      unfold State.work
      rw [hmain]
      show 2 * s.servers.length + 1 + (s.workers.map Worker.work).sum + 1 = _ + (3 * (numTask - task) + 2) + _
      omega
  | @call i p task hp hpc =>
      have hset := work_set numTask hp .reporting s.main
      unfold Worker.work at hset
      rw [hpc] at hset
      change State.work numTask (s.setPc i p .reporting) + _ + 3 = _ + _ + 2 at hset
      omega
  | @exit i p hclosed hp hpc =>
      have hset := work_set numTask hp .exited s.main
      unfold Worker.work at hset
      rw [hpc] at hset
      change State.work numTask (s.setPc i p .exited) + _ + 1 = _ + _ + 0 at hset
      omega
  | @collect i p n hmain hn hp hpc =>
      have hset := work_set numTask hp .ready (.collecting (n + 1))
      rw [hmain] at hset
      unfold Worker.work at hset
      rw [hpc] at hset
      change _ + 1 + 2 = _ + 1 + 1 at hset
      omega
  | @finish n hmain hn =>
      unfold State.work
      rw [hmain]
      show 2 * s.servers.length + 0 + (s.workers.map Worker.work).sum + 1 = _ + 1 + _
      omega

/-! ## Where a run can end -/

section Stuck

variable (hok : ScheduleOk servers numTask tr s) (hstuck : (schedule servers numTask).Stuck s)
include hstuck

theorem stuck_servers : s.servers = [] := by
  cases hs : s.servers with
  | nil => rfl
  | cons srv rest => exact absurd (Step.arrive hs) (hstuck _ _)

theorem stuck_not_calling (hp : s.workers[i]? = some p) (task : Nat) : p.pc ≠ .calling task :=
  fun hpc => hstuck _ _ (Step.call hp hpc)

include hok

theorem stuck_length : s.workers.length = servers.length := by
  have harrived := hok.arrived
  rw [stuck_servers hstuck, List.append_nil] at harrived
  rw [← harrived, List.length_map]

/-- The only deadlock: as many tasks as there are servers have been sent, and every worker waits with its notice for
`Schedule`, which waits for one that takes the next task. -/
theorem stuck_sending {task : Nat} (hmain : s.main = .sending task) :
    task = servers.length ∧ task < numTask ∧ ∀ (i : Nat) (p : Worker), s.workers[i]? = some p → p.pc = .reporting := by
  have htask : task < numTask := by
    by_contra hge
    exact hstuck _ _ (Step.close hmain hge)
  have hall : ∀ (i : Nat) (p : Worker), s.workers[i]? = some p → p.pc = .reporting := by
    intro i p hp
    cases hpc : p.pc with
    | ready => exact absurd (Step.hand hmain htask hp hpc) (hstuck _ _)
    | calling task' => exact absurd hpc (stuck_not_calling hstuck hp task')
    | reporting => rfl
    | exited => exact absurd hmain (hok.exits i p hp hpc task)
  have hnotices := hok.notices
  rw [hmain, busy_eq_length hall] at hnotices
  rw [← stuck_length hok hstuck]
  exact ⟨hnotices.symm, htask, hall⟩

/-- `Schedule` is not stuck in its second loop: while a notice is missing, some worker has it. -/
theorem stuck_not_collecting (n : Nat) : s.main ≠ .collecting n := by
  intro hmain
  have hn : n < numTask := by
    by_contra hge
    exact hstuck _ _ (Step.finish hmain hge)
  have hnotices := hok.notices
  rw [hmain] at hnotices
  change (s.workers.map Worker.busy).sum + n = numTask at hnotices
  obtain ⟨i, p, hp, hbusy⟩ := exists_of_sum_pos (show 0 < (s.workers.map Worker.busy).sum by omega)
  cases hpc : p.pc with
  | calling task => exact stuck_not_calling hstuck hp task hpc
  | reporting => exact hstuck _ _ (Step.collect hmain hn hp hpc)
  | ready =>
      unfold Worker.busy at hbusy
      rw [hpc] at hbusy
      exact absurd hbusy (Nat.lt_irrefl 0)
  | exited =>
      unfold Worker.busy at hbusy
      rw [hpc] at hbusy
      exact absurd hbusy (Nat.lt_irrefl 0)

/-- After the return no worker stays behind. -/
theorem stuck_returned (hmain : s.main = .returned) :
    numTask ≤ servers.length ∧ ∀ (i : Nat) (p : Worker), s.workers[i]? = some p → p.pc = .exited := by
  constructor
  · have henough := hok.enough
    rw [hmain, stuck_length hok hstuck] at henough
    exact henough
  · intro i p hp
    have hclosed : ∀ task, s.main ≠ .sending task := by
      intro task
      rw [hmain]
      exact fun heq => by cases heq
    have hnotices := hok.notices
    rw [hmain] at hnotices
    change (s.workers.map Worker.busy).sum + numTask = numTask at hnotices
    have hbusy := List.le_sum_of_mem (List.mem_map_of_mem (f := Worker.busy) (List.mem_of_getElem? hp))
    cases hpc : p.pc with
    | ready => exact absurd (Step.exit hclosed hp hpc) (hstuck _ _)
    | calling task => exact absurd hpc (stuck_not_calling hstuck hp task)
    | reporting =>
        unfold Worker.busy at hbusy hnotices
        rw [hpc] at hbusy
        change 1 ≤ _ at hbusy
        omega
    | exited => rfl

end Stuck

/-- The measure that bounds a run, at its start. -/
theorem schedule_length (h : Reaches (schedule servers numTask) tr s) :
    tr.length ≤ 3 * numTask + 2 * servers.length + 2 := by
  have hle := Reaches.length_add_le (w := State.work numTask)
    (fun _ _ _ _ _ hstep => Nat.lt_of_succ_le (Nat.le_of_eq (step_work hstep))) h
  change _ + _ ≤ 2 * servers.length + (3 * numTask + 2) + 0 at hle
  omega

end Invariant

/-! ## The results -/

/-- **`Schedule` returns if there are servers enough, and is blocked for ever if not.** It stops after a bounded number
of steps whatever their order. If it was given no more tasks than there are servers it has then returned and every
worker has exited; otherwise it is blocked at the first task for which there is no server, and every worker at its
notice. -/
theorem schedule_ends (servers : List String) (numTask : Nat) :
    ∀ tr s, Reaches (schedule servers numTask) tr s →
      tr.length ≤ 3 * numTask + 2 * servers.length + 2 ∧
      (∃ tr' s', Run (schedule servers numTask) s tr' s' ∧ (schedule servers numTask).Stuck s') ∧
      ((schedule servers numTask).Stuck s →
        (numTask ≤ servers.length → s.main = .returned ∧ ∀ p ∈ s.workers, p.pc = .exited) ∧
        (servers.length < numTask → s.main = .sending servers.length ∧ ∀ p ∈ s.workers, p.pc = .reporting)) := by
  intro tr s h
  have hok := schedule_ok h
  refine ⟨schedule_length h, ?_, ?_⟩
  · exact exists_stuck (w := State.work numTask)
      (fun _ _ _ hstep => Nat.lt_of_succ_le (Nat.le_of_eq (step_work hstep))) s
  · intro hstuck
    -- a stuck state is at a send or past the return, and the two exclude each other by the numbers
    cases hmain : s.main with
    | sending task =>
        obtain ⟨rfl, hlt, hall⟩ := stuck_sending hok hstuck hmain
        refine ⟨fun hle => absurd hlt (Nat.not_lt.mpr hle), fun _ => ⟨rfl, ?_⟩⟩
        intro p hp
        obtain ⟨i, hi⟩ := List.getElem?_of_mem hp
        exact hall i p hi
    | collecting n => exact absurd hmain (stuck_not_collecting hok hstuck n)
    | returned =>
        obtain ⟨hle, hall⟩ := stuck_returned hok hstuck hmain
        refine ⟨fun _ => ⟨rfl, ?_⟩, fun hlt => absurd hlt (Nat.not_lt.mpr hle)⟩
        intro p hp
        obtain ⟨i, hi⟩ := List.getElem?_of_mem hp
        exact hall i p hi

/-- The `main` of the file: one server, two tasks. -/
theorem main_deadlocks : ∃ tr s, Reaches (schedule ["S1"] 2) tr s ∧ (schedule ["S1"] 2).Stuck s ∧
    s.main = .sending 1 := by
  obtain ⟨_, ⟨tr, s, hrun, hstuck⟩, _⟩ := schedule_ends ["S1"] 2 [] _ Run.nil
  have hreach : Reaches (schedule ["S1"] 2) tr s := hrun
  have hend := (schedule_ends ["S1"] 2 tr s hreach).2.2 hstuck
  exact ⟨tr, s, hreach, hstuck, (hend.2 (by decide)).1⟩

/-- **Every task is called once.** No task is called twice, and none that was not given; a task is called at one of the
servers. When `Schedule` has returned, all of them have been. -/
theorem schedule_calls_once (servers : List String) (numTask : Nat) :
    ∀ tr s, Reaches (schedule servers numTask) tr s →
      ((calls tr).map Prod.snd).Nodup ∧ (∀ c ∈ calls tr, c.1 ∈ servers ∧ c.2 < numTask) ∧
      (s.main = .returned → ((calls tr).map Prod.snd).Perm (List.range numTask)) := by
  intro tr s h
  have hok := schedule_ok h
  have hnodup : ((calls tr).map Prod.snd).Nodup := by
    rw [List.nodup_iff_count_le_one]
    intro task
    have honce := hok.once task
    split at honce <;> omega
  have hgiven : ∀ task, task ∈ (calls tr).map Prod.snd → task < numTask := by
    intro task hmem
    have hpos := List.count_pos_iff.mpr hmem
    have honce := hok.once task
    have hhanded := hok.handed
    split at honce <;> omega
  refine ⟨hnodup, ?_, ?_⟩
  · intro c hc
    exact ⟨hok.callers c hc, hgiven c.2 (List.mem_map_of_mem hc)⟩
  · intro hmain
    rw [List.perm_ext_iff_of_nodup hnodup List.nodup_range]
    intro task
    rw [List.mem_range]
    refine ⟨hgiven task, ?_⟩
    intro hlt
    -- no worker is busy any more, so the one that had the task has called it
    have hnotices := hok.notices
    have honce := hok.once task
    rw [hmain] at hnotices honce
    change (s.workers.map Worker.busy).sum + numTask = numTask at hnotices
    change _ = (if task < numTask then 1 else 0) at honce
    rw [if_pos hlt] at honce
    have hfree : (s.workers.map (Worker.has task)).sum = 0 := by
      apply sum_map_eq_zero
      intro i p hp
      have hbusy := List.le_sum_of_mem (List.mem_map_of_mem (f := Worker.busy) (List.mem_of_getElem? hp))
      apply if_neg
      intro hpc
      unfold Worker.busy at hbusy hnotices
      rw [hpc] at hbusy
      change 1 ≤ _ at hbusy
      omega
    exact List.count_pos_iff.mp (by omega)

/-- Two servers and two tasks: the second server takes the first task, and reports it after the first one has reported
the second. -/
theorem schedule_calls_once_two : ∃ tr s, Reaches (schedule ["S1", "S2"] 2) tr s ∧ s.main = .returned ∧
    calls tr = [("S1", 1), ("S2", 0)] ∧ ((calls tr).map Prod.snd).Perm (List.range 2) := by
  have hfirst : Reaches (schedule ["S1", "S2"] 2) _ _ := Run.nil.snoc (Step.arrive rfl)
  have hsecond := hfirst.snoc (Step.arrive rfl)
  have hhand := hsecond.snoc (Step.hand (i := 1) rfl (by decide) rfl rfl)
  have hhand' := hhand.snoc (Step.hand (i := 0) rfl (by decide) rfl rfl)
  have hcall := hhand'.snoc (Step.call (i := 0) rfl rfl)
  have hclose := hcall.snoc (Step.close rfl (by decide))
  have hcall' := hclose.snoc (Step.call (i := 1) rfl rfl)
  have hcollect := hcall'.snoc (Step.collect (i := 0) rfl (by decide) rfl rfl)
  have hcollect' := hcollect.snoc (Step.collect (i := 1) rfl (by decide) rfl rfl)
  have hreach := hcollect'.snoc (Step.finish rfl (by decide))
  exact ⟨_, _, hreach, rfl, rfl, (schedule_calls_once ["S1", "S2"] 2 _ _ hreach).2.2 rfl⟩

end Lecture
end DistributedLabs
