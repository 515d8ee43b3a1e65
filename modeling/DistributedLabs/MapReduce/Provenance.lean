import DistributedLabs.MapReduce.Intermediate

/-!
# `MapReduce.Provenance` — which attempt an intermediate file comes from

The attempt number guards the coordinator's tables, and nothing guards the directory: an attempt that has been
superseded publishes its buckets like any other. A trace says who published what, but an event names only the
worker, so the trace is read into a `Ledger`: which attempt of which map task every worker is at, what the map
function returned to each attempt, and which attempts renamed a file to `mr-m-r`, in this order. The file is
the one that was renamed last.

`LedgerOk` ties the ledger to the state: an attempt runs the map function once and publishes every bucket at
most once, a file holds the bucket of its last publisher's result, and a completed task's attempt has
published all of its buckets. What follows is exact: the files of a map task come from the accepted attempt
if and only if no other attempt publishes after it.
-/

namespace DistributedLabs
namespace MapReduce

open Lib

/-! ## Reading a trace -/

/-- A map task and one of its attempts. -/
structure MapAttempt where
  task : Nat
  attempt : Nat
deriving DecidableEq, Repr

/-- What a trace says of the attempts of map tasks. -/
structure Ledger where
  current : WorkerId → Option MapAttempt := fun _ => none
  executions : MapAttempt → List (List KeyValue) := fun _ => []
  /-- The attempts that published bucket `r` of task `m`, oldest first. -/
  publishers : Nat × Nat → List Nat := fun _ => []

/-- The map attempt a reply hands out. -/
def RPCReply.mapAttempt (reply : RPCReply) : Option MapAttempt :=
  match reply.taskType with
  | .map => some ⟨reply.taskId, reply.attempt⟩
  | _ => none

/-- The map function has returned to an attempt. -/
def Ledger.addExecution (l : Ledger) (x : MapAttempt) (kva : List KeyValue) : Ledger :=
  { l with executions := Function.update l.executions x (l.executions x ++ [kva]) }

/-- An attempt has renamed a file to its bucket. -/
def Ledger.addPublisher (l : Ledger) (x : MapAttempt) (r : Nat) : Ledger :=
  { l with publishers := Function.update l.publishers (x.task, r) (l.publishers (x.task, r) ++ [x.attempt]) }

/-- The ledger after one more event. -/
def Ledger.record (l : Ledger) : JobEvent → Ledger
  | .assign w _ reply => { l with current := Function.update l.current w reply.mapAttempt }
  | .act w (.runMap kva) => (l.current w).elim l (fun x => l.addExecution x kva)
  | .act w (.publish r) => (l.current w).elim l (fun x => l.addPublisher x r)
  | _ => l

/-- A trace as a ledger. -/
def ledger (tr : List JobEvent) : Ledger := tr.foldl Ledger.record {}

theorem ledger_snoc (tr : List JobEvent) (e : JobEvent) : ledger (tr ++ [e]) = (ledger tr).record e := by
  simp [ledger]

/-- What the map function returned to an attempt, each time it was run. -/
def executions (tr : List JobEvent) (m attempt : Nat) : List (List KeyValue) :=
  (ledger tr).executions ⟨m, attempt⟩

/-- The attempts that renamed a file to `mr-m-r`, oldest first. -/
def publishers (tr : List JobEvent) (m r : Nat) : List Nat := (ledger tr).publishers (m, r)

/-- The attempt the file `mr-m-r` comes from. -/
def publishedBy (tr : List JobEvent) (m r : Nat) : Option Nat := (publishers tr m r).getLast?

/-! ## The invariant -/

/-- What the ledger has about a worker at a map task. -/
def PcRecorded (l : Ledger) (w : WorkerId) : Pc → Prop
  | .mapAssigned reply => l.current w = some ⟨reply.taskId, reply.attempt⟩
      ∧ l.executions ⟨reply.taskId, reply.attempt⟩ = []
      ∧ ∀ r, reply.attempt ∉ l.publishers (reply.taskId, r)
  | .mapWriting reply kva _ published => l.current w = some ⟨reply.taskId, reply.attempt⟩
      ∧ l.executions ⟨reply.taskId, reply.attempt⟩ = [kva]
      ∧ ∀ r, reply.attempt ∈ l.publishers (reply.taskId, r) ↔ r < published
  | _ => True

/-- An attempt without a trace in the ledger. -/
def Ledger.Fresh (l : Ledger) (x : MapAttempt) : Prop :=
  l.executions x = [] ∧ ∀ r, x.attempt ∉ l.publishers (x.task, r)

/-- The invariant: what the ledger says agrees with the program points, the tables and the directory. -/
structure LedgerOk (job : Job) (l : Ledger) (s : JobState) : Prop where
  pc : ∀ w, PcRecorded l w (s.pc w)
  fresh : ∀ {m : Nat} {task : Task}, (s.coord.tasks .map)[m]? = some task →
    ∀ attempt ≥ task.handed, l.Fresh ⟨m, attempt⟩
  once : ∀ m r, (l.publishers (m, r)).Nodup
  file : ∀ {m r : Nat} {c : List Char}, s.dir.lookup (intermediateName m r) = some c →
    ∃ attempt kva, (l.publishers (m, r)).getLast? = some attempt ∧ l.executions ⟨m, attempt⟩ = [kva]
      ∧ c = encodeRecords (inBucket job.nReduce r kva)
  completed : ∀ {m : Nat} {task : Task}, (s.coord.tasks .map)[m]? = some task → task.state = .completed →
    (∃ kva, l.executions ⟨m, task.attempt⟩ = [kva])
      ∧ ∀ r < job.nReduce, task.attempt ∈ l.publishers (m, r)

theorem ledgerOk_init (job : Job) : LedgerOk job (ledger []) (jobSys job).init := by
  refine ⟨fun w => trivial, fun _ _ _ => ⟨rfl, fun r hr => by cases hr⟩, fun m r => List.nodup_nil,
    fun hc => by simp [jobSys] at hc, fun {m task} ht hdone => ?_⟩
  -- no task is completed at the start
  obtain ⟨file, _, rfl⟩ := List.mem_map.mp (List.mem_of_getElem? ht)
  cases hdone

/-! ## Small facts about the ledger -/

section Ledger

variable {l l' : Ledger} {x y : MapAttempt} {r r' : Nat} {kva : List KeyValue}

@[simp] theorem addExecution_current : (l.addExecution x kva).current = l.current := rfl

@[simp] theorem addExecution_publishers : (l.addExecution x kva).publishers = l.publishers := rfl

@[simp] theorem addPublisher_current : (l.addPublisher x r).current = l.current := rfl

@[simp] theorem addPublisher_executions : (l.addPublisher x r).executions = l.executions := rfl

theorem addExecution_self : (l.addExecution x kva).executions x = l.executions x ++ [kva] :=
  Function.update_self ..

theorem addExecution_ne (h : y ≠ x) : (l.addExecution x kva).executions y = l.executions y :=
  Function.update_of_ne h ..

theorem addPublisher_self :
    (l.addPublisher x r).publishers (x.task, r) = l.publishers (x.task, r) ++ [x.attempt] :=
  Function.update_self ..

theorem addPublisher_ne {m : Nat} (h : (m, r') ≠ (x.task, r)) :
    (l.addPublisher x r).publishers (m, r') = l.publishers (m, r') :=
  Function.update_of_ne h ..

/-- Who has published a file when one more has published some file. -/
theorem mem_addPublisher : y.attempt ∈ (l.addPublisher x r).publishers (y.task, r')
    ↔ y.attempt ∈ l.publishers (y.task, r') ∨ (y = x ∧ r' = r) := by
  obtain ⟨m, a⟩ := x
  obtain ⟨m', a'⟩ := y
  by_cases h : (m', r') = (m, r)
  · obtain ⟨rfl, rfl⟩ := Prod.mk.inj h
    have hself := addPublisher_self (l := l) (x := ⟨m', a⟩) (r := r')
    simp only at hself ⊢
    rw [hself]
    simp
  · have hne := addPublisher_ne (l := l) (x := ⟨m, a⟩) h
    simp only at hne ⊢
    rw [hne]
    refine (or_iff_left ?_).symm
    rintro ⟨hxy, rfl⟩
    obtain ⟨rfl, _⟩ := MapAttempt.mk.inj hxy
    exact h rfl

/-- A worker's entry only depends on the entries of its own attempt. -/
theorem PcRecorded.frame {w : WorkerId} {pc : Pc} (h : PcRecorded l w pc)
    (hcur : l'.current w = l.current w)
    (hx : ∀ m a, pc.held = some ⟨.map, m, a⟩ → l'.executions ⟨m, a⟩ = l.executions ⟨m, a⟩
      ∧ ∀ r, a ∈ l'.publishers (m, r) ↔ a ∈ l.publishers (m, r)) : PcRecorded l' w pc := by
  cases pc with
  | mapAssigned reply =>
      obtain ⟨hw, hexec, hpub⟩ := h
      obtain ⟨hexec', hpub'⟩ := hx _ _ rfl
      exact ⟨hcur.trans hw, hexec'.trans hexec, fun r hr => hpub r ((hpub' r).mp hr)⟩
  | mapWriting reply kva temps published =>
      obtain ⟨hw, hexec, hpub⟩ := h
      obtain ⟨hexec', hpub'⟩ := hx _ _ rfl
      exact ⟨hcur.trans hw, hexec'.trans hexec, fun r => (hpub' r).trans (hpub r)⟩
  | _ => trivial

end Ledger

/-! ## Steps of the coordinator -/

theorem TaskMove.handed_le {s : State} {k : Kind} {i : Nat} {task task' : Task} {e : Event}
    (h : TaskMove s k i task e task') : task.handed ≤ task'.handed := by
  unfold Task.handed
  cases h with
  | same _ _ => exact Nat.le_refl _
  | started _ hidle => simp [Task.start, hidle]
  | completed _ =>
      simp only [Task.complete]
      split <;> simp
  | expired _ hprog => simp [hprog]

/-- An attempt that a worker holds has been handed out. -/
theorem HeldOk.lt_handed {s : State} (h : HeldOk s) {w : WorkerId} {m a : Nat}
    (hw : s.held w = some ⟨.map, m, a⟩) :
    ∃ task, (s.coord.tasks .map)[m]? = some task ∧ a < task.handed := by
  obtain ⟨k, task, hk, ht, hle, hprog⟩ := h.held hw
  obtain rfl : Kind.map = k := taskType_inj hk
  refine ⟨task, ht, ?_⟩
  unfold Task.handed
  rcases Nat.lt_or_eq_of_le hle with hlt | heq
  · exact Nat.lt_add_right _ hlt
  · have hle' : a = task.attempt := heq
    simp [hprog heq, hle']

/-- Steps of the coordinator leave the entries of the attempts alone. -/
theorem record_of_rpc {l : Ledger} {e : JobEvent} {e' : Event} (h : e.rpc? = some e') :
    (l.record e).executions = l.executions ∧ (l.record e).publishers = l.publishers := by
  cases e with
  | act _ _ => cases h
  | assign _ _ _ => exact ⟨rfl, rfl⟩
  | report _ _ _ => exact ⟨rfl, rfl⟩
  | crash _ => exact ⟨rfl, rfl⟩
  | tick _ _ => exact ⟨rfl, rfl⟩

section Rpc

variable {job : Job} {tr : List JobEvent} {s s' : JobState} {e : JobEvent} {l : Ledger}

/-- After a step of the coordinator, attempts not yet handed out have no entry. -/
theorem fresh_rpc {e' : Event} (hok : LedgerOk job l s) (hs : Step s.view e' s'.view)
    (hl : e.rpc? = some e') {m : Nat} {task' : Task} (ht' : (s'.coord.tasks .map)[m]? = some task')
    {attempt : Nat} (hge : attempt ≥ task'.handed) : (l.record e).Fresh ⟨m, attempt⟩ := by
  obtain ⟨task, ht, hmove⟩ := step_task_back hs ht'
  obtain ⟨hexec, hpub⟩ := record_of_rpc (l := l) hl
  unfold Ledger.Fresh
  rw [hexec, hpub]
  exact hok.fresh ht attempt (Nat.le_trans hmove.handed_le hge)

/-- After a step of the coordinator, completed tasks have run once and published all buckets. -/
theorem completed_rpc {e' : Event} (hok : LedgerOk job l s) (hjob : JobOk job s)
    (hs : JobStep job s e s') (hview : Step s.view e' s'.view) (hl : e.rpc? = some e') {m : Nat}
    {task' : Task} (ht' : (s'.coord.tasks .map)[m]? = some task') (hdone : task'.state = .completed) :
    (∃ kva, (l.record e).executions ⟨m, task'.attempt⟩ = [kva])
      ∧ ∀ r < job.nReduce, task'.attempt ∈ (l.record e).publishers (m, r) := by
  obtain ⟨task, ht, hmove⟩ := step_task_back hview ht'
  obtain ⟨hsame, hsame'⟩ := record_of_rpc (l := l) hl
  rw [hsame, hsame']
  cases hmove with
  | same _ _ => exact hok.completed ht hdone
  | started _ _ => cases hdone
  | @completed w _ =>
      -- the worker was ready to report, so it had published every bucket
      have hready := hs.ready_of_report hl
      have hw := hok.pc w
      have hhands := hjob.pc w
      cases hpc : s.pc w with
      | mapWriting reply kva temps published =>
          rw [hpc] at hready hw hhands
          simp only [Pc.ready, Option.ite_none_right_eq_some] at hready
          obtain ⟨⟨_, rfl⟩, hargs⟩ := hready
          obtain ⟨_, rfl, hatt⟩ := DoneArgs.mk.inj (Option.some.inj hargs)
          obtain ⟨_, hexec, hpub⟩ := hw
          rw [hatt] at hexec hpub
          refine ⟨⟨kva, hexec⟩, fun r hr => (hpub r).mpr ?_⟩
          rwa [hhands.1.1]
      | reducePublished reply =>
          rw [hpc] at hready
          obtain ⟨htype, _⟩ := DoneArgs.mk.inj (Option.some.inj hready)
          cases htype
      | _ => rw [hpc] at hready; cases hready
  | expired _ _ => cases hdone

/-- After a step of the coordinator, the ledger has what it has to have of each worker. -/
theorem pc_rpc {e' : Event} (hok : LedgerOk job l s) (hs : JobStep job s e s') (hl : e.rpc? = some e') :
    ∀ v, PcRecorded (l.record e) v (s'.pc v) := by
  obtain ⟨hexec, hpub⟩ := record_of_rpc (l := l) hl
  -- a worker that does not move keeps its entry if the ledger keeps its attempt
  have hkeep : ∀ v, (l.record e).current v = l.current v → PcRecorded (l.record e) v (s.pc v) := by
    intro v hcur
    refine (hok.pc v).frame hcur (fun m a _ => ?_)
    rw [hexec, hpub]
    exact ⟨rfl, fun r => Iff.rfl⟩
  have hmove : ∀ {w pc'}, PcRecorded (l.record e) w pc' →
      (∀ v ≠ w, (l.record e).current v = l.current v) →
      ∀ v, PcRecorded (l.record e) v (Function.update s.pc w pc' v) :=
    fun hpc' hcur => (Function.forall_update_iff s.pc (PcRecorded (l.record e))).mpr
      ⟨hpc', fun v hv => hkeep v (hcur v hv)⟩
  cases hs with
  | act _ => cases hl
  | @assign w now hw =>
      refine hmove ?_ (fun v hv => Function.update_of_ne hv ..)
      rcases assign_cases s.coord now with ⟨k, task, i, _, hi, hidle, _, hreply⟩ | ⟨_, hreply⟩
      · rw [hreply]
        cases k with
        | reduce => trivial
        | map =>
            -- an idle task is handed out with an attempt that nobody had before
            have hfresh := hok.fresh hi task.attempt (by simp [Task.handed, hidle])
            exact ⟨Function.update_self .., hfresh⟩
      · rcases afterAssign_of_none hreply with hpc | hpc <;> rw [hpc] <;> trivial
  | report _ _ => exact hmove trivial (fun v _ => rfl)
  | crash => exact hmove trivial (fun v _ => rfl)
  | tick => exact fun v => hkeep v rfl

end Rpc

/-! ## Actions of a worker -/

section Act

variable {job : Job} {s : JobState} {l l' : Ledger} {w : WorkerId} {pc' : Pc} {dir' : Dir}

/-- The invariant after an action: what is to be shown of the worker that acts, of the entries of attempts
    that were never handed out, and of the files. Completed tasks keep their publishers. -/
theorem ledgerOk_act (hok : LedgerOk job l s) (hH : HeldOk s.view) {x : MapAttempt}
    (hw : (s.pc w).held = some ⟨.map, x.task, x.attempt⟩) (hpc' : PcRecorded l' w pc')
    (hcur : l'.current = l.current)
    (hexec : ∀ y ≠ x, l'.executions y = l.executions y)
    (hpub : ∀ y r, y ≠ x → (y.attempt ∈ l'.publishers (y.task, r) ↔ y.attempt ∈ l.publishers (y.task, r)))
    (hmono : ∀ m r a, a ∈ l.publishers (m, r) → a ∈ l'.publishers (m, r))
    (honce : ∀ m r, (l'.publishers (m, r)).Nodup)
    (hfile : ∀ {m r : Nat} {c : List Char}, dir'.lookup (intermediateName m r) = some c →
      ∃ attempt kva, (l'.publishers (m, r)).getLast? = some attempt ∧ l'.executions ⟨m, attempt⟩ = [kva]
        ∧ c = encodeRecords (inBucket job.nReduce r kva)) :
    LedgerOk job l' ⟨s.coord, dir', Function.update s.pc w pc'⟩ := by
  refine ⟨?_, ?_, honce, hfile, ?_⟩
  · refine (Function.forall_update_iff s.pc (PcRecorded l')).mpr ⟨hpc', fun v hv => ?_⟩
    refine (hok.pc v).frame (by rw [hcur]) (fun m a hheld => ?_)
    -- nobody else is at this attempt
    have hne : (⟨m, a⟩ : MapAttempt) ≠ x := by
      rintro rfl
      have hv' : s.view.held v = some ⟨.map, m, a⟩ := hheld
      exact hv (hH.unique hv' hw)
    exact ⟨hexec _ hne, fun r => hpub ⟨m, a⟩ r hne⟩
  · intro m task ht attempt hge
    obtain ⟨task', ht', hlt⟩ := hH.lt_handed hw
    have hne : (⟨m, attempt⟩ : MapAttempt) ≠ x := by
      rintro rfl
      obtain rfl := Option.some.inj (ht'.symm.trans ht)
      exact absurd hlt (Nat.not_lt.mpr hge)
    obtain ⟨hnone, hno⟩ := hok.fresh ht attempt hge
    exact ⟨(hexec _ hne).trans hnone, fun r hr => hno r ((hpub ⟨m, attempt⟩ r hne).mp hr)⟩
  · intro m task ht hdone
    obtain ⟨⟨kva, hran⟩, hall⟩ := hok.completed ht hdone
    refine ⟨⟨kva, (hexec _ ?_).trans hran⟩, fun r hr => hmono _ _ _ (hall r hr)⟩
    -- the attempt of a completed task is not one that somebody is still at
    rintro rfl
    have hprog := hH.completed_inProgress (k := .map) ht hw
    rw [hdone] at hprog
    cases hprog

/-- An action that runs no map function and publishes nothing. -/
theorem ledgerOk_quiet (hok : LedgerOk job l s) (hpc' : PcRecorded l w pc')
    (hdir : ∀ m r, dir'.lookup (intermediateName m r) = s.dir.lookup (intermediateName m r)) :
    LedgerOk job l ⟨s.coord, dir', Function.update s.pc w pc'⟩ :=
  { pc := (Function.forall_update_iff s.pc (PcRecorded l)).mpr ⟨hpc', fun v _ => hok.pc v⟩
    fresh := hok.fresh
    once := hok.once
    file := fun {m r _} hc => hok.file ((hdir m r).symm.trans hc)
    completed := hok.completed }

/-- The map function returns, for the first time in this attempt. -/
theorem ledgerOk_runMap (hok : LedgerOk job l s) (hH : HeldOk s.view) {reply : RPCReply}
    {kva : List KeyValue} (hpc : s.pc w = .mapAssigned reply) :
    LedgerOk job (l.record (.act w (.runMap kva)))
      ⟨s.coord, s.dir, Function.update s.pc w (.mapWriting reply kva [] 0)⟩ := by
  have hw := hok.pc w
  rw [hpc] at hw
  obtain ⟨hcur, hnone, hno⟩ := hw
  have hrec : l.record (.act w (.runMap kva)) = l.addExecution ⟨reply.taskId, reply.attempt⟩ kva := by
    simp [Ledger.record, hcur]
  rw [hrec]
  refine ledgerOk_act hok hH (x := ⟨reply.taskId, reply.attempt⟩) (by rw [hpc]; rfl) ?_ rfl
    (fun y hy => addExecution_ne hy) (fun _ _ _ => Iff.rfl) (fun _ _ _ => id) hok.once ?_
  · refine ⟨hcur, ?_, fun r => ?_⟩
    · rw [addExecution_self, hnone]
      rfl
    · exact iff_of_false (hno r) (Nat.not_lt_zero r)
  · intro m r c hc
    obtain ⟨attempt, kva', hlast, hexec, hcontent⟩ := hok.file hc
    refine ⟨attempt, kva', hlast, ?_, hcontent⟩
    rw [addExecution_ne, hexec]
    -- an attempt that has published is not one that starts now
    intro heq
    obtain ⟨rfl, rfl⟩ := MapAttempt.mk.inj heq
    exact hno r (List.mem_of_getLast? hlast)

/-- A bucket is published, for the first time by this attempt. -/
theorem ledgerOk_publish (hok : LedgerOk job l s) (hjob : JobOk job s) (hH : HeldOk s.view)
    {reply : RPCReply} {kva : List KeyValue} {temps : List Nat} {i sfx : Nat}
    (hpc : s.pc w = .mapWriting reply kva temps i) (hi : i < reply.nReduce) :
    LedgerOk job (l.record (.act w (.publish i)))
      ⟨s.coord, s.dir.publish (mapTempName i sfx) (intermediateName reply.taskId i)
          (mapBuffer reply kva i), Function.update s.pc w (.mapWriting reply kva temps (i + 1))⟩ := by
  have hw := hok.pc w
  have hhands := hjob.pc w
  rw [hpc] at hw hhands
  obtain ⟨hcur, hexec, hpub⟩ := hw
  have hrec : l.record (.act w (.publish i)) = l.addPublisher ⟨reply.taskId, reply.attempt⟩ i := by
    simp [Ledger.record, hcur]
  rw [hrec]
  have hmem : ∀ (y : MapAttempt) r, y.attempt ∈ (l.addPublisher ⟨reply.taskId, reply.attempt⟩ i).publishers
      (y.task, r) ↔ y.attempt ∈ l.publishers (y.task, r)
        ∨ (y = ⟨reply.taskId, reply.attempt⟩ ∧ r = i) := fun y r => mem_addPublisher
  refine ledgerOk_act hok hH (x := ⟨reply.taskId, reply.attempt⟩) (by rw [hpc]; rfl) ?_ rfl
    (fun _ _ => rfl) ?_ ?_ ?_ ?_
  · refine ⟨hcur, hexec, fun r => ?_⟩
    refine (hmem ⟨reply.taskId, reply.attempt⟩ r).trans ?_
    show reply.attempt ∈ l.publishers (reply.taskId, r) ∨ _ ↔ _
    rw [hpub r]
    simp only [true_and]
    omega
  · intro y r hne
    rw [hmem y r]
    exact or_iff_left (fun h => hne h.1)
  · intro m r a ha
    exact (hmem ⟨m, a⟩ r).mpr (Or.inl ha)
  · intro m r
    by_cases hmr : (m, r) = (reply.taskId, i)
    · obtain ⟨rfl, rfl⟩ := Prod.mk.inj hmr
      rw [addPublisher_self (x := ⟨reply.taskId, reply.attempt⟩)]
      refine List.Nodup.append (hok.once _ _) (List.nodup_singleton _) ?_
      -- this bucket was not published by this attempt before
      intro a ha hself
      obtain rfl := List.mem_singleton.mp hself
      exact Nat.lt_irrefl _ ((hpub r).mp ha)
    · rw [addPublisher_ne (x := ⟨reply.taskId, reply.attempt⟩) hmr]
      exact hok.once m r
  · intro m r c hc
    by_cases hmr : (m, r) = (reply.taskId, i)
    · obtain ⟨rfl, rfl⟩ := Prod.mk.inj hmr
      refine ⟨reply.attempt, kva, ?_, hexec, ?_⟩
      · rw [addPublisher_self (x := ⟨reply.taskId, reply.attempt⟩)]
        exact List.getLast?_concat ..
      · rw [lookup_publish_self] at hc
        rw [← Option.some.inj hc, mapBuffer_eq hi, hhands.1.1]
    · rw [addPublisher_ne (x := ⟨reply.taskId, reply.attempt⟩) hmr]
      rw [lookup_publish_ne _ (by simpa using hmr) (by simp)] at hc
      exact hok.file hc

/-- Every action of a worker keeps the invariant. -/
theorem ledgerOk_worker (hok : LedgerOk job l s) (hjob : JobOk job s) (hH : HeldOk s.view) {a : Action}
    (ha : WorkerStep job s.dir (s.pc w) a pc' dir') :
    LedgerOk job (l.record (.act w a)) ⟨s.coord, dir', Function.update s.pc w pc'⟩ := by
  have hw := hok.pc w
  have hdir := ha.lookup_intermediate
  generalize hpc : s.pc w = pc at ha hw hdir
  cases ha with
  | runMap _ _ _ => exact ledgerOk_runMap hok hH hpc
  | publish hlen hi _ =>
      exact ledgerOk_publish hok hjob hH hpc (hlen ▸ (List.getElem?_eq_some_iff.mp hi).1)
  | createTemp _ _ => exact ledgerOk_quiet hok hw (fun m r => (hdir m r).resolve_right (by simp))
  | spill _ _ _ _ _ => exact ledgerOk_quiet hok hw (fun m r => (hdir m r).resolve_right (by simp))
  | glob => exact ledgerOk_quiet hok trivial (fun _ _ => rfl)
  | read _ => exact ledgerOk_quiet hok trivial (fun _ _ => rfl)
  | runReduce _ _ => exact ledgerOk_quiet hok trivial (fun m r => (hdir m r).resolve_right (by simp))
  | spillOut _ _ => exact ledgerOk_quiet hok trivial (fun m r => (hdir m r).resolve_right (by simp))
  | publishOut _ => exact ledgerOk_quiet hok trivial (fun m r => (hdir m r).resolve_right (by simp))

end Act

theorem ledgerOk {job : Job} {tr : List JobEvent} {s : JobState} (h : Reaches (jobSys job) tr s) :
    LedgerOk job (ledger tr) s := by
  refine Reaches.invariant (P := fun tr s => LedgerOk job (ledger tr) s) (ledgerOk_init job) ?_ h
  intro tr s e s' hrun ih hs
  rw [ledger_snoc]
  have hstep : JobStep job s e s' := hs
  rcases hstep.view with ⟨e', hl, hview, hdir⟩ | ⟨w, a, pc', dir', rfl, ha, rfl⟩
  · obtain ⟨hexec, hpub⟩ := record_of_rpc (l := ledger tr) hl
    refine ⟨pc_rpc ih hstep hl, fresh_rpc ih hview hl, ?_, ?_,
      completed_rpc ih (jobOk hrun) hstep hview hl⟩
    · rw [hpub]
      exact ih.once
    · rw [hdir, hexec, hpub]
      exact ih.file
  · exact ledgerOk_worker ih (jobOk hrun) (heldOk (reaches_view hrun)) ha

/-! ## Where the files of a map task come from -/

section Output

variable {job : Job} {tr : List JobEvent} {s : JobState} {m : Nat}

/-- All files of a map task come from one execution of the map function, that of the given attempt. -/
def FromExecution (job : Job) (tr : List JobEvent) (s : JobState) (m attempt : Nat) : Prop :=
  ∃ kva, executions tr m attempt = [kva] ∧ ∀ r < job.nReduce, publishedBy tr m r = some attempt
    ∧ s.dir.lookup (intermediateName m r) = some (encodeRecords (inBucket job.nReduce r kva))

/-- Nobody renames over a file of the attempt. -/
def NotOverwritten (job : Job) (tr : List JobEvent) (m attempt : Nat) : Prop :=
  ∀ r < job.nReduce, ∀ before after, publishers tr m r = before ++ attempt :: after → after = []

/-- In a list without repetitions a member is the last one exactly when nothing follows it. -/
theorem getLast?_eq_some_iff_of_nodup {l : List Nat} {a : Nat} (hl : l.Nodup) (ha : a ∈ l) :
    l.getLast? = some a ↔ ∀ before after, l = before ++ a :: after → after = [] := by
  constructor
  · intro hlast before after heq
    subst heq
    rcases List.eq_nil_or_concat after with rfl | ⟨after', b, rfl⟩
    · rfl
    · -- the last element would be a second occurrence
      have hassoc : before ++ a :: after'.concat b = (before ++ a :: after') ++ [b] := by simp
      rw [hassoc, List.getLast?_concat] at hlast
      have hb : b = a := Option.some.inj hlast
      have hnot := (List.nodup_middle.mp hl).notMem
      exact absurd (by simp [hb]) hnot
  · intro hend
    obtain ⟨before, after, rfl⟩ := List.append_of_mem ha
    obtain rfl := hend before after rfl
    exact List.getLast?_concat ..

/-- The file holds the bucket of what its publisher's execution returned. -/
theorem file_of_publisher (h : Reaches (jobSys job) tr s) {r attempt : Nat} {kva : List KeyValue}
    (hmem : intermediateName m r ∈ s.dir) (hpub : publishedBy tr m r = some attempt)
    (hexec : executions tr m attempt = [kva]) :
    s.dir.lookup (intermediateName m r) = some (encodeRecords (inBucket job.nReduce r kva)) := by
  obtain ⟨c, hc⟩ := mem_iff_lookup.mp hmem
  obtain ⟨attempt', kva', hlast, hexec', rfl⟩ := (ledgerOk h).file hc
  obtain rfl := Option.some.inj (hlast.symm.trans hpub)
  obtain rfl : kva' = kva := by simpa using hexec'.symm.trans hexec
  exact hc

/-- **Where the files of a map task come from.** Once the reduce phase has begun, a map task has one accepted attempt,
and its files come from that attempt's execution of the map function exactly when no other attempt has renamed over
them. -/
theorem map_output_from_accepted_iff (h : Reaches (jobSys job) tr s) (hpast : s.coord.phase ≠ .map)
    (hm : m < job.files.length) :
    ∃ attempt, acceptances (coordTrace tr) .map m = [attempt]
      ∧ (FromExecution job tr s m attempt ↔ NotOverwritten job tr m attempt) := by
  have hview := reaches_view h
  have hlt : m < (s.view.coord.tasks .map).length := by rwa [(tasks_length hview).1]
  have ht := List.getElem?_eq_getElem hlt
  have hdone := Complete.get ((phaseOk hview).afterMap hpast) ht
  have hacc := (accountsOk hview).accepted ht
  rw [if_pos hdone] at hacc
  refine ⟨_, hacc, ?_⟩
  have hok := ledgerOk h
  obtain ⟨⟨kva, hexec⟩, hall⟩ := hok.completed ht hdone
  constructor
  · rintro ⟨_, _, hfiles⟩ r hr
    exact (getLast?_eq_some_iff_of_nodup (hok.once m r) (hall r hr)).mp (hfiles r hr).1
  · intro hnot
    refine ⟨kva, hexec, fun r hr => ?_⟩
    have hpub := (getLast?_eq_some_iff_of_nodup (hok.once m r) (hall r hr)).mpr (hnot r hr)
    exact ⟨hpub, file_of_publisher h (mem_of_pastMap h hpast hm hr) hpub hexec⟩

end Output

/-! A job whose map function tags its records, so that two executions can be told apart. -/

/-- What an execution returns: a record for each of two buckets, with its tag. -/
def taggedResult (tag : String) : List KeyValue := [⟨"a", tag⟩, ⟨"b", tag⟩]

/-- One file, two reduce tasks, and a map function that may return either of two results. -/
def taggedJob : Job where
  files := ["in"]
  nReduce := 2
  input file := if file = "in" then some "x" else none
  emits _ _ kva := kva = taggedResult "first" ∨ kva = taggedResult "second"
  reducef _ values := toString values.length

/-- Worker 0 is so slow that its map task is done by worker 1. In the reduce phase it publishes the first of
    its two buckets. -/
def overwritingTrace : List JobEvent :=
  [.assign 0 0 ⟨.map, "in", 2, 0, 0⟩, .act 0 (.runMap (taggedResult "first")), .act 0 (.createTemp 7),
    .act 0 (.createTemp 7), .tick 11000000000 true, .assign 1 12000000000 ⟨.map, "in", 2, 0, 1⟩,
    .act 1 (.runMap (taggedResult "second")), .act 1 (.createTemp 8), .act 1 (.createTemp 8),
    .act 1 (.publish 0), .act 1 (.publish 1), .report 1 ⟨.map, 0, 1⟩ true, .act 0 (.publish 0)]

/-- Before the late rename, both files come from the accepted attempt. -/
theorem map_output_from_accepted_iff_onTime :
    ∃ s, Reaches (jobSys taggedJob) overwritingTrace.dropLast s
      ∧ FromExecution taggedJob overwritingTrace.dropLast s 0 1 := by
  have hrun : ∃ s, Reaches (jobSys taggedJob) overwritingTrace.dropLast s
      ∧ decide (s.coord.phase ≠ .map) = true :=
    exists_reaches_with (jobSys_computedBy _) _ (by decide +kernel)
  obtain ⟨s, h, hp⟩ := hrun
  obtain ⟨attempt, hacc, hiff⟩ := map_output_from_accepted_iff h (of_decide_eq_true hp) (m := 0) (by decide)
  have hone : acceptances (coordTrace overwritingTrace.dropLast) .map 0 = [1] := by decide
  obtain rfl : attempt = 1 := by simpa using hacc.symm.trans hone
  refine ⟨s, h, hiff.mpr (fun r hr before after heq => ?_)⟩
  have hpub : ∀ r < 2, publishers overwritingTrace.dropLast 0 r = [1] := by decide
  rw [hpub r hr] at heq
  cases before with
  | nil => simpa using heq.symm
  | cons b before => simp at heq

/-- The reducers find one bucket of the superseded attempt and one of the accepted attempt. -/
theorem superseded_attempt_published :
    ∃ s, Reaches (jobSys taggedJob) overwritingTrace s ∧ s.coord.phase = .reduce
      ∧ acceptances (coordTrace overwritingTrace) .map 0 = [1]
      ∧ (s.dir.lookup (intermediateName 0 0)).map decodeStream = some [⟨"a", "first"⟩]
      ∧ (s.dir.lookup (intermediateName 0 1)).map decodeStream = some [⟨"b", "second"⟩]
      ∧ publishedBy overwritingTrace 0 0 = some 0 ∧ publishedBy overwritingTrace 0 1 = some 1
      ∧ ∀ attempt, ¬ FromExecution taggedJob overwritingTrace s 0 attempt := by
  have hrun : ∃ s, Reaches (jobSys taggedJob) overwritingTrace s ∧ decide (s.coord.phase = .reduce
      ∧ (s.dir.lookup (intermediateName 0 0)).map decodeStream = some [⟨"a", "first"⟩]
      ∧ (s.dir.lookup (intermediateName 0 1)).map decodeStream = some [⟨"b", "second"⟩]) = true :=
    exists_reaches_with (jobSys_computedBy _) _ (by decide +kernel)
  obtain ⟨s, h, hp⟩ := hrun
  obtain ⟨hphase, hfirst, hsecond⟩ := of_decide_eq_true hp
  have hpub₀ : publishedBy overwritingTrace 0 0 = some 0 := by decide
  have hpub₁ : publishedBy overwritingTrace 0 1 = some 1 := by decide
  refine ⟨s, h, hphase, by decide, hfirst, hsecond, hpub₀, hpub₁, ?_⟩
  rintro attempt ⟨_, _, hfiles⟩
  have h₀ := (hfiles 0 (by decide)).1
  have h₁ := (hfiles 1 (by decide)).1
  rw [hpub₀] at h₀
  rw [hpub₁, ← h₀] at h₁
  cases h₁

end MapReduce
end DistributedLabs
