import DistributedLabs.Crawler.Serial
import DistributedLabs.Lib.Explore
import DistributedLabs.Lib.Transition

/-!
# `Crawler.Mutex` — the crawler with goroutines and a lock

`ConcurrentMutex` of `lecutures/crawler.go`. Every call runs in a goroutine of its own and starts one for each link
of its page; they share the map of what has been fetched, behind a lock. A call waits for those it has started
before it returns (`WaitGroup`).

A process is a call, from its start to the `Done` that follows it. A step of the system is one step of one of them,
whichever: `testAndSet`, `Fetch`, one round of the loop (`Add` and `go`), `Wait` when it does not block, and `Done`.

## The argument

* Who waits for whom is a tree (`TreeOk`): a process was started by an earlier one, whose counter counts it until it is
  finished. So when the first call returns all others are finished (`TreeOk.all_finished`), and as long as it has not,
  the latest process that is not finished can go on (`TreeOk.progress`).
* What has been marked, fetched and found is a search in progress (`Exploring`, of `Lib.Explore`), whichever process
  takes the next step. With nothing left to look at, it has visited what is reached from the start.
* Every step takes from a budget (`State.work`): a page pays when it is marked for all that is done on its account.
-/

namespace DistributedLabs
namespace Crawler
namespace Mutex

open Lib

/-! ## The code -/

/-- Where a call is. `spawning rest` is in the loop, with the links still to come; with none to come it is at `Wait`. -/
inductive Pc where
  | start
  | fetching
  | spawning (rest : List String)
  | returned
  | finished
deriving DecidableEq, Repr

/-- A call of `ConcurrentMutex`. `parent` is the call whose `WaitGroup` it reports to, and `done` the counter of its
    own. -/
structure Proc where
  url : String
  parent : Option Nat
  pc : Pc
  done : Int
deriving DecidableEq, Repr

/-- The map behind the lock, and the calls in the order in which they were started. -/
structure State where
  fetched : List String
  procs : List Proc
deriving DecidableEq, Repr

/-- The steps of the processes, by number. -/
inductive Event where
  | testAndSet (i : Nat)
  | fetch (i : Nat) (url : String)
  | go (i : Nat)
  | wait (i : Nat)
  | done (i : Nat)
deriving DecidableEq, Repr

/-- The URL that a step calls `Fetch` on. -/
def fetchOf : Event → Option String
  | .fetch _ url => some url
  | _ => none

/-- The calls of `Fetch` in a run. -/
def fetches (tr : List Event) : List String := tr.filterMap fetchOf

/-- A call that has just been started. -/
def call (url : String) (parent : Option Nat) : Proc := { url := url, parent := parent, pc := .start, done := 0 }

/-- Process `i` goes on as `p`. -/
def State.set (s : State) (i : Nat) (p : Proc) : State := { s with procs := s.procs.set i p }

/-- A step of one process. `testAndSet` is one step, since it holds the lock throughout. -/
inductive Step (f : Fetcher) : State → Event → State → Prop where
  | seen {s i p} : s.procs[i]? = some p → p.pc = .start → p.url ∈ s.fetched →
      Step f s (.testAndSet i) (s.set i { p with pc := .returned })
  | mark {s i p} : s.procs[i]? = some p → p.pc = .start → p.url ∉ s.fetched →
      Step f s (.testAndSet i) ({ s with fetched := p.url :: s.fetched }.set i { p with pc := .fetching })
  | fetchErr {s i p err} : s.procs[i]? = some p → p.pc = .fetching → f.fetch p.url = .error err →
      Step f s (.fetch i p.url) (s.set i { p with pc := .returned })
  | fetchOk {s i p urls} : s.procs[i]? = some p → p.pc = .fetching → f.fetch p.url = .ok urls →
      Step f s (.fetch i p.url) (s.set i { p with pc := .spawning urls })
  | go {s i p u rest} : s.procs[i]? = some p → p.pc = .spawning (u :: rest) →
      Step f s (.go i)
        { s with procs := s.procs.set i { p with pc := .spawning rest, done := p.done + 1 } ++ [call u (some i)] }
  | wait {s i p} : s.procs[i]? = some p → p.pc = .spawning [] → p.done = 0 →
      Step f s (.wait i) (s.set i { p with pc := .returned })
  | done {s i p j q} : s.procs[i]? = some p → p.pc = .returned → p.parent = some j → s.procs[j]? = some q →
      Step f s (.done i) ((s.set i { p with pc := .finished }).set j { q with done := q.done - 1 })

/-- `ConcurrentMutex(start, fetcher, makeState())`. -/
def crawl (f : Fetcher) (start : String) : LTS State Event :=
  ⟨{ fetched := [], procs := [call start none] }, Step f⟩

/-- The call that was made first has returned. -/
def State.Returned (s : State) : Prop := HasAt s.procs 0 (fun p => p.pc = .returned)

/-! ## Who waits for whom -/

/-- The process keeps `j` waiting. -/
def Proc.waits (j : Nat) (p : Proc) : Nat := if p.parent = some j ∧ p.pc ≠ .finished then 1 else 0

/-- Every process but the first was started by one before it, which counts it until it is finished; only one that
    is still starting others, or waits for them, has any to count. -/
structure TreeOk (s : State) : Prop where
  first : 0 < s.procs.length
  root : ∀ (i : Nat) (p : Proc), s.procs[i]? = some p → p.parent = none → i = 0 ∧ p.pc ≠ .finished
  parent : ∀ (i : Nat) (p : Proc) (j : Nat), s.procs[i]? = some p → p.parent = some j → j < i
  count : ∀ (i : Nat) (p : Proc), s.procs[i]? = some p → p.done = (s.procs.map (Proc.waits i)).sum
  settled : ∀ (i : Nat) (p : Proc), s.procs[i]? = some p → (∀ rest, p.pc ≠ .spawning rest) → p.done = 0

section Tree

variable {s : State} {i : Nat} {p : Proc}

/-- A step that neither starts nor finishes a process. -/
theorem TreeOk.set (h : TreeOk s) (hp : s.procs[i]? = some p) {pc : Pc} (hold : p.pc ≠ .finished)
    (hnew : pc ≠ .finished) (hsettled : (∀ rest, pc ≠ .spawning rest) → p.done = 0) {fetched : List String} :
    TreeOk ({ s with fetched := fetched }.set i { p with pc := pc }) := by
  -- a process keeps its parent waiting as long as it is not finished, wherever it is
  have hwaits : ∀ j, ((s.procs.set i { p with pc := pc }).map (Proc.waits j)).sum =
      (s.procs.map (Proc.waits j)).sum := by
    intro j
    have hset := sum_map_set (w := Proc.waits j) hp { p with pc := pc }
    have hsame : Proc.waits j { p with pc := pc } = p.waits j := by
      unfold Proc.waits
      simp [hold, hnew]
    omega
  constructor
  · show 0 < (s.procs.set i _).length
    rw [List.length_set]
    exact h.first
  · intro k q hq hroot
    rcases set_cases hq with ⟨rfl, rfl⟩ | ⟨_, hq⟩
    · exact ⟨(h.root k p hp hroot).1, hnew⟩
    · exact h.root k q hq hroot
  · intro k q j hq hparent
    rcases set_cases hq with ⟨rfl, rfl⟩ | ⟨_, hq⟩
    · exact h.parent k p j hp hparent
    · exact h.parent k q j hq hparent
  · intro k q hq
    show q.done = ((s.procs.set i _).map (Proc.waits k)).sum
    rw [hwaits]
    rcases set_cases hq with ⟨rfl, rfl⟩ | ⟨_, hq⟩
    · exact h.count k p hp
    · exact h.count k q hq
  · intro k q hq hpc
    rcases set_cases hq with ⟨rfl, rfl⟩ | ⟨_, hq⟩
    · exact hsettled hpc
    · exact h.settled k q hq hpc

/-- A process that has started no others goes on. -/
theorem TreeOk.alone (h : TreeOk s) (hp : s.procs[i]? = some p) {pc : Pc} (hold : p.pc = .start ∨ p.pc = .fetching)
    (hnew : pc ≠ .finished) {fetched : List String} :
    TreeOk ({ s with fetched := fetched }.set i { p with pc := pc }) := by
  rcases hold with hpc | hpc
  · exact h.set hp (by simp [hpc]) hnew (fun _ => h.settled i p hp (by simp [hpc]))
  · exact h.set hp (by simp [hpc]) hnew (fun _ => h.settled i p hp (by simp [hpc]))

theorem tree_init (start : String) : TreeOk { fetched := [], procs := [call start none] } := by
  have hone : ∀ (i : Nat) (p : Proc), [call start none][i]? = some p → i = 0 ∧ p = call start none := by
    intro i p hp
    cases i with
    | zero => exact ⟨rfl, (Option.some.inj hp).symm⟩
    | succ i => cases hp
  constructor
  · exact Nat.one_pos
  · intro i p hp _
    obtain ⟨rfl, rfl⟩ := hone i p hp
    exact ⟨rfl, Pc.noConfusion⟩
  · intro i p j hp hparent
    obtain ⟨rfl, rfl⟩ := hone i p hp
    cases hparent
  · intro i p hp
    obtain ⟨rfl, rfl⟩ := hone i p hp
    rfl
  · intro i p hp _
    obtain ⟨rfl, rfl⟩ := hone i p hp
    rfl

/-- No process reports to one that is not there. -/
theorem TreeOk.no_orphan (h : TreeOk s) : (s.procs.map (Proc.waits s.procs.length)).sum = 0 := by
  apply sum_map_eq_zero
  intro i p hp
  unfold Proc.waits
  rw [if_neg]
  rintro ⟨hparent, _⟩
  have hlt := h.parent i p _ hp hparent
  have hlen := lt_length hp
  omega

/-- A process starts another: it has one more to wait for. -/
theorem TreeOk.go {u : String} {rest : List String} (h : TreeOk s) (hp : s.procs[i]? = some p)
    (hpc : p.pc = .spawning (u :: rest)) :
    TreeOk { s with
      procs := s.procs.set i { p with pc := .spawning rest, done := p.done + 1 } ++ [call u (some i)] } := by
  have hlen : i < s.procs.length := lt_length hp
  -- the new process keeps its parent waiting and nobody else
  have hwaits : ∀ j, ((s.procs.set i { p with pc := .spawning rest, done := p.done + 1 }
      ++ [call u (some i)]).map (Proc.waits j)).sum = (s.procs.map (Proc.waits j)).sum + (if j = i then 1 else 0) := by
    intro j
    have hset := sum_map_set (w := Proc.waits j) hp { p with pc := .spawning rest, done := p.done + 1 }
    have hsame : Proc.waits j { p with pc := .spawning rest, done := p.done + 1 } = p.waits j := by
      unfold Proc.waits
      simp [hpc]
    have hchild : Proc.waits j (call u (some i)) = if j = i then 1 else 0 := by
      unfold Proc.waits call
      simp [eq_comm]
    rw [List.map_append, List.sum_append, List.map_singleton, List.sum_singleton, hchild]
    omega
  constructor
  · simp
  · intro k q hq hroot
    rcases snoc_cases hq with ⟨_, rfl⟩ | hq
    · cases hroot
    · rcases set_cases hq with ⟨rfl, rfl⟩ | ⟨_, hq⟩
      · exact ⟨(h.root k p hp hroot).1, Pc.noConfusion⟩
      · exact h.root k q hq hroot
  · intro k q j hq hparent
    rcases snoc_cases hq with ⟨rfl, rfl⟩ | hq
    · rw [List.length_set]
      cases hparent
      exact hlen
    · rcases set_cases hq with ⟨rfl, rfl⟩ | ⟨_, hq⟩
      · exact h.parent k p j hp hparent
      · exact h.parent k q j hq hparent
  · intro k q hq
    show q.done = ((_ ++ [call u (some i)]).map (Proc.waits k)).sum
    rw [hwaits]
    rcases snoc_cases hq with ⟨rfl, rfl⟩ | hq
    -- nobody reports to the new process: its number has not been used before
    · rw [List.length_set, h.no_orphan, if_neg (by omega)]
      rfl
    · rcases set_cases hq with ⟨rfl, rfl⟩ | ⟨hne, hq⟩
      · have hcount := h.count k p hp
        rw [if_pos rfl]
        show p.done + 1 = _
        omega
      · rw [if_neg hne]
        exact h.count k q hq
  · intro k q hq hsettled
    rcases snoc_cases hq with ⟨rfl, rfl⟩ | hq
    · rfl
    · rcases set_cases hq with ⟨rfl, rfl⟩ | ⟨_, hq⟩
      · exact absurd rfl (hsettled rest)
      · exact h.settled k q hq hsettled

/-- A call that has returned tells its parent, which has one fewer to wait for. -/
theorem TreeOk.done {j : Nat} {q : Proc} (h : TreeOk s) (hp : s.procs[i]? = some p) (hpc : p.pc = .returned)
    (hparent : p.parent = some j) (hq : s.procs[j]? = some q) :
    TreeOk ((s.set i { p with pc := .finished }).set j { q with done := q.done - 1 }) := by
  have hji : j ≠ i := Nat.ne_of_lt (h.parent i p j hp hparent)
  have hq' : (s.procs.set i { p with pc := .finished })[j]? = some q := set_other hji hq _
  have hpwaits : ∀ k, p.waits k = if k = j then 1 else 0 := by
    intro k
    unfold Proc.waits
    simp [hparent, hpc, eq_comm]
  have hwaits : ∀ k, (((s.procs.set i { p with pc := .finished }).set j
      { q with done := q.done - 1 }).map (Proc.waits k)).sum + (if k = j then 1 else 0) =
        (s.procs.map (Proc.waits k)).sum := by
    intro k
    have hset := sum_map_set (w := Proc.waits k) hp { p with pc := .finished }
    have hset' := sum_map_set (w := Proc.waits k) hq' { q with done := q.done - 1 }
    have hfinished : Proc.waits k { p with pc := .finished } = 0 := by simp [Proc.waits]
    have hsame : Proc.waits k { q with done := q.done - 1 } = q.waits k := rfl
    rw [hpwaits] at hset
    omega
  -- every process but `i` and `j` is as it was
  have hcases : ∀ {k : Nat} {r : Proc}, ((s.procs.set i { p with pc := .finished }).set j
      { q with done := q.done - 1 })[k]? = some r →
      (k = j ∧ r = { q with done := q.done - 1 }) ∨ (k = i ∧ k ≠ j ∧ r = { p with pc := .finished }) ∨
        (k ≠ j ∧ s.procs[k]? = some r) := by
    intro k r hr
    rcases set_cases hr with ⟨rfl, rfl⟩ | ⟨hkj, hr⟩
    · exact Or.inl ⟨rfl, rfl⟩
    · rcases set_cases hr with ⟨rfl, rfl⟩ | ⟨_, hr⟩
      · exact Or.inr (Or.inl ⟨rfl, hkj, rfl⟩)
      · exact Or.inr (Or.inr ⟨hkj, hr⟩)
  constructor
  · show 0 < ((s.procs.set i _).set j _).length
    rw [List.length_set, List.length_set]
    exact h.first
  · intro k r hr hroot
    rcases hcases hr with ⟨rfl, rfl⟩ | ⟨rfl, _, rfl⟩ | ⟨_, hr⟩
    · exact h.root k q hq hroot
    · rw [show Proc.parent { p with pc := .finished } = some j from hparent] at hroot
      cases hroot
    · exact h.root k r hr hroot
  · intro k r l hr hl
    rcases hcases hr with ⟨rfl, rfl⟩ | ⟨rfl, _, rfl⟩ | ⟨_, hr⟩
    · exact h.parent k q l hq hl
    · exact h.parent k p l hp hl
    · exact h.parent k r l hr hl
  · intro k r hr
    show r.done = (((s.procs.set i _).set j _).map (Proc.waits k)).sum
    have hk := hwaits k
    rcases hcases hr with ⟨rfl, rfl⟩ | ⟨rfl, hkj, rfl⟩ | ⟨hkj, hr⟩
    · have hcount := h.count k q hq
      rw [if_pos rfl] at hk
      show q.done - 1 = _
      omega
    · have hcount := h.count k p hp
      rw [if_neg hkj] at hk
      show p.done = _
      omega
    · have hcount := h.count k r hr
      rw [if_neg hkj] at hk
      omega
  · intro k r hr hsettled
    rcases hcases hr with ⟨rfl, rfl⟩ | ⟨rfl, _, rfl⟩ | ⟨_, hr⟩
    · -- `j` counts `i`, so it is not settled
      have hzero := h.settled k q hq hsettled
      have hcount := h.count k q hq
      have hle := List.le_sum_of_mem (List.mem_map_of_mem (f := Proc.waits k) (List.mem_of_getElem? hp))
      rw [hpwaits, if_pos rfl] at hle
      omega
    · exact h.settled k p hp (by simp [hpc])
    · exact h.settled k r hr hsettled

end Tree

/-! ## What has been found -/

/-- The process has this URL to look at, or to start a process for. -/
def Proc.Offers (v : String) (p : Proc) : Prop :=
  (p.pc = .start ∧ p.url = v) ∨ ∃ rest, p.pc = .spawning rest ∧ v ∈ rest

/-- The process is about to fetch the page. -/
def Proc.Busy (v : String) (p : Proc) : Prop := p.pc = .fetching ∧ p.url = v

/-- Process `i` is about to fetch the page. -/
def State.busy (s : State) (i : Nat) (v : String) : Prop := HasAt s.procs i (Proc.Busy v)

/-- Some process has the URL to look at. -/
def State.found (s : State) (v : String) : Prop := ∃ i, HasAt s.procs i (Proc.Offers v)

/-- What holds between the steps: the tree of the calls, and a search in progress. -/
structure MutexOk (f : Fetcher) (start : String) (log : List String) (s : State) : Prop where
  tree : TreeOk s
  exploring : Exploring f.links start s.fetched log s.busy s.found

section Found

variable {f : Fetcher} {start : String} {log : List String} {s : State} {i : Nat} {p q : Proc} {v : String}

/-- A call that has just started has its own URL to look at. -/
theorem offers_start (h : p.pc = .start) : p.Offers v ↔ v = p.url := by
  unfold Proc.Offers
  simp [h, eq_comm]

/-- A call in its loop has the links that are still to come. -/
theorem offers_spawning {rest : List String} (h : p.pc = .spawning rest) : p.Offers v ↔ v ∈ rest := by
  unfold Proc.Offers
  simp [h]

/-- At its other points a call has nothing to look at. -/
theorem offers_none (h : p.pc = .fetching ∨ p.pc = .returned ∨ p.pc = .finished) : ¬ p.Offers v := by
  unfold Proc.Offers
  rcases h with h | h | h <;> simp [h]

theorem not_busy (h : p.pc ≠ .fetching) : ¬ p.Busy v := fun hb => h hb.1

/-- What the other processes have. -/
def State.foundElse (s : State) (i : Nat) (v : String) : Prop := ∃ j, j ≠ i ∧ HasAt s.procs j (Proc.Offers v)

theorem found_iff (hp : s.procs[i]? = some p) : s.found v ↔ p.Offers v ∨ s.foundElse i v := by
  constructor
  · rintro ⟨j, hj⟩
    by_cases hji : j = i
    · subst hji
      exact Or.inl ((hasAt_iff hp).mp hj)
    · exact Or.inr ⟨j, hji, hj⟩
  · rintro (hoff | ⟨j, _, hj⟩)
    · exact ⟨i, p, hp, hoff⟩
    · exact ⟨j, hj⟩

theorem found_set (fetched : List String) (hp : s.procs[i]? = some p) :
    ({ s with fetched := fetched }.set i q).found v ↔ q.Offers v ∨ s.foundElse i v := by
  unfold State.found State.foundElse State.set
  simp only [hasAt_set hp]
  constructor
  · rintro ⟨j, ⟨_, hoff⟩ | hj⟩
    · exact Or.inl hoff
    · exact Or.inr ⟨j, hj⟩
  · rintro (hoff | ⟨j, hj⟩)
    · exact ⟨i, Or.inl ⟨rfl, hoff⟩⟩
    · exact ⟨j, Or.inr hj⟩

/-- A process that is not busy before or after its step. -/
theorem busy_set {j : Nat} (hp : s.procs[i]? = some p) (hold : p.pc ≠ .fetching) (hnew : q.pc ≠ .fetching) :
    (s.set i q).busy j v ↔ s.busy j v :=
  hasAt_set_of_iff hp ⟨fun hb => absurd hb (not_busy hnew), fun hb => absurd hb (not_busy hold)⟩

/-- `testAndSet` says that the page has been there: the process had nothing that was not known. -/
theorem exploring_seen (h : Exploring f.links start s.fetched log s.busy s.found) (hp : s.procs[i]? = some p)
    (hpc : p.pc = .start) (hseen : p.url ∈ s.fetched) :
    Exploring f.links start s.fetched log (s.set i { p with pc := .returned }).busy
      (s.set i { p with pc := .returned }).found := by
  refine h.shift (fun j v => busy_set hp (by simp [hpc]) (by simp)) (fun v hv => ?_) (fun v hv => ?_)
  · rcases (found_set _ hp).mp hv with hoff | helse
    · exact absurd hoff (offers_none (Or.inr (Or.inl rfl)))
    · exact (found_iff hp).mpr (Or.inr helse)
  · rcases (found_iff hp).mp hv with hoff | helse
    · rw [(offers_start hpc).mp hoff]
      exact Or.inr hseen
    · exact Or.inl ((found_set _ hp).mpr (Or.inr helse))

/-- `testAndSet` marks the page, and the process goes on to fetch it. -/
theorem exploring_mark (h : Exploring f.links start s.fetched log s.busy s.found) (hp : s.procs[i]? = some p)
    (hpc : p.pc = .start) (hnew : p.url ∉ s.fetched) :
    Exploring f.links start (p.url :: s.fetched) log
      ({ s with fetched := p.url :: s.fetched }.set i { p with pc := .fetching }).busy
      ({ s with fetched := p.url :: s.fetched }.set i { p with pc := .fetching }).found := by
  have hfound : s.found p.url := (found_iff hp).mpr (Or.inl ((offers_start hpc).mpr rfl))
  refine h.mark (i := i) hfound hnew (fun j v => ?_) (fun v hv => ?_) (fun v hv => ?_)
  · refine (hasAt_set hp).trans ?_
    constructor
    · rintro (⟨rfl, _, rfl⟩ | ⟨_, hb⟩)
      · exact Or.inr ⟨rfl, rfl⟩
      · exact Or.inl hb
    · rintro (hb | ⟨rfl, rfl⟩)
      · refine Or.inr ⟨?_, hb⟩
        rintro rfl
        exact not_busy (by simp [hpc]) ((hasAt_iff hp).mp hb)
      · exact Or.inl ⟨rfl, rfl, rfl⟩
  · rcases (found_set _ hp).mp hv with hoff | helse
    · exact absurd hoff (offers_none (Or.inl rfl))
    · exact (found_iff hp).mpr (Or.inr helse)
  · rcases (found_iff hp).mp hv with hoff | helse
    · exact Or.inr ((offers_start hpc).mp hoff)
    · exact Or.inl ((found_set _ hp).mpr (Or.inr helse))

/-- Whatever `Fetch` returns, the process has the links of its page afterwards. -/
theorem exploring_fetch (h : Exploring f.links start s.fetched log s.busy s.found) (hp : s.procs[i]? = some p)
    (hpc : p.pc = .fetching) (hq : q.pc ≠ .fetching) (hoffers : ∀ v, q.Offers v ↔ v ∈ f.links p.url) :
    Exploring f.links start s.fetched (log ++ [p.url]) (s.set i q).busy (s.set i q).found := by
  refine h.look (i := i) ⟨p, hp, hpc, rfl⟩ (fun j v => ?_) (fun v => ?_) (fun v hv => ?_)
  · refine (hasAt_set hp).trans ?_
    constructor
    · rintro (⟨_, hb⟩ | ⟨hne, hb⟩)
      · exact absurd hb (not_busy hq)
      · exact ⟨hb, hne⟩
    · exact fun hb => Or.inr ⟨hb.2, hb.1⟩
  · have hno : ¬ p.Offers v := offers_none (Or.inl hpc)
    refine (found_set _ hp).trans ?_
    rw [hoffers, found_iff hp]
    constructor
    · rintro (hlink | helse)
      · exact Or.inr hlink
      · exact Or.inl (Or.inr helse)
    · rintro ((hoff | helse) | hlink)
      · exact absurd hoff hno
      · exact Or.inr helse
      · exact Or.inl hlink
  · exact ((hasAt_iff hp).mp hv).2.symm

/-- A process goes on and has the same as before. -/
theorem exploring_keep (h : Exploring f.links start s.fetched log s.busy s.found) (hp : s.procs[i]? = some p)
    (hold : p.pc ≠ .fetching) (hq : q.pc ≠ .fetching) (hoffers : ∀ v, q.Offers v ↔ p.Offers v) :
    Exploring f.links start s.fetched log (s.set i q).busy (s.set i q).found := by
  refine h.shift (fun j v => busy_set hp hold hq) (fun v hv => ?_) (fun v hv => Or.inl ?_)
  · rw [found_iff hp, ← hoffers]
    exact (found_set _ hp).mp hv
  · rw [found_iff hp, ← hoffers] at hv
    exact (found_set _ hp).mpr hv

/-- The link passes from the loop to the process that is started for it. -/
theorem exploring_go {u : String} {rest : List String} {done : Int}
    (h : Exploring f.links start s.fetched log s.busy s.found) (hp : s.procs[i]? = some p)
    (hpc : p.pc = .spawning (u :: rest)) :
    Exploring f.links start s.fetched log
      (State.busy { s with procs := s.procs.set i { p with pc := .spawning rest, done := done } ++ [call u (some i)] })
      (State.found { s with
        procs := s.procs.set i { p with pc := .spawning rest, done := done } ++ [call u (some i)] }) := by
  have hfound : ∀ v, State.found { s with
      procs := s.procs.set i { p with pc := .spawning rest, done := done } ++ [call u (some i)] } v ↔ s.found v := by
    intro v
    have hset := found_set (q := { p with pc := .spawning rest, done := done }) (v := v) s.fetched hp
    rw [offers_spawning rfl] at hset
    rw [found_iff hp, offers_spawning hpc, List.mem_cons, or_assoc, ← hset]
    unfold State.found
    simp only [hasAt_snoc, offers_start (p := call u (some i)) rfl]
    constructor
    · rintro ⟨j, ⟨_, hv⟩ | hj⟩
      · exact Or.inl hv
      · exact Or.inr ⟨j, hj⟩
    · rintro (hv | ⟨j, hj⟩)
      · exact ⟨_, Or.inl ⟨rfl, hv⟩⟩
      · exact ⟨j, Or.inr hj⟩
  refine h.shift (fun j v => ?_) (fun v hv => (hfound v).mp hv) (fun v hv => Or.inl ((hfound v).mpr hv))
  refine hasAt_snoc.trans ?_
  have hset := busy_set (j := j) (v := v) (q := { p with pc := .spawning rest, done := done }) hp (by simp [hpc])
    (by simp)
  constructor
  · rintro (⟨_, hb⟩ | hb)
    · exact absurd hb (not_busy Pc.noConfusion)
    · exact hset.mp hb
  · exact fun hb => Or.inr (hset.mpr hb)

end Found

section Steps

variable {f : Fetcher} {start : String} {log : List String} {s s' : State} {e : Event}

/-- The search starts with the first URL found and nothing marked. -/
theorem mutex_init : MutexOk f start [] (crawl f start).init := by
  refine ⟨tree_init start, Exploring.init (fun v => ?_) (fun i v hb => ?_)⟩
  · rw [found_iff (i := 0) (p := call start none) rfl, offers_start rfl]
    constructor
    · rintro (rfl | ⟨j, hj, p, hp, _⟩)
      · rfl
      · cases j with
        | zero => exact absurd rfl hj
        | succ j => cases hp
    · exact Or.inl
  · obtain ⟨p, hp, hpc, _⟩ := hb
    cases i with
    | zero =>
        cases hp
        cases hpc
    | succ i => cases hp

/-- **One step of any process** keeps the tree, and keeps the search in progress. -/
theorem MutexOk.step (h : MutexOk f start log s) (hstep : Step f s e s') :
    MutexOk f start (log ++ (fetchOf e).toList) s' := by
  cases hstep with
  | seen hp hpc hseen =>
      refine ⟨h.tree.alone hp (Or.inl hpc) (by simp), Exploring.silent rfl ?_⟩
      exact exploring_seen h.exploring hp hpc hseen
  | mark hp hpc hnew =>
      refine ⟨h.tree.alone hp (Or.inl hpc) (by simp), Exploring.silent rfl ?_⟩
      exact exploring_mark h.exploring hp hpc hnew
  | fetchErr hp hpc hfetch =>
      refine ⟨h.tree.alone hp (Or.inr hpc) (by simp), ?_⟩
      refine exploring_fetch h.exploring hp hpc (by simp) (fun v => ?_)
      rw [links_of_error hfetch]
      exact iff_of_false (offers_none (Or.inr (Or.inl rfl))) List.not_mem_nil
  | fetchOk hp hpc hfetch =>
      refine ⟨h.tree.alone hp (Or.inr hpc) (by simp), ?_⟩
      refine exploring_fetch h.exploring hp hpc (by simp) (fun v => ?_)
      rw [links_of_ok hfetch]
      exact offers_spawning rfl
  | go hp hpc => exact ⟨h.tree.go hp hpc, (exploring_go h.exploring hp hpc).silent rfl⟩
  | wait hp hpc hzero =>
      refine ⟨h.tree.set hp (by simp [hpc]) (by simp) (fun _ => hzero), Exploring.silent rfl ?_⟩
      refine exploring_keep h.exploring hp (by simp [hpc]) (by simp) (fun v => ?_)
      rw [offers_spawning hpc]
      exact iff_of_false (offers_none (Or.inr (Or.inl rfl))) List.not_mem_nil
  | @done i p j q hp hpc hparent hq =>
      have hji : j ≠ i := Nat.ne_of_lt (h.tree.parent i p j hp hparent)
      refine ⟨h.tree.done hp hpc hparent hq, Exploring.silent rfl ?_⟩
      have hfinish := exploring_keep (q := { p with pc := .finished }) h.exploring hp (by simp [hpc]) (by simp)
        (fun v => iff_of_false (offers_none (Or.inr (Or.inr rfl))) (offers_none (Or.inr (Or.inl hpc))))
      -- the parent's counter goes down, whatever the parent is doing
      have hq' : (s.set i { p with pc := .finished }).procs[j]? = some q := set_other hji hq _
      have hkeep : ∀ {P : Proc → Prop} {k : Nat}, (P { q with done := q.done - 1 } ↔ P q) →
          (HasAt ((s.set i { p with pc := .finished }).set j { q with done := q.done - 1 }).procs k P ↔
            HasAt (s.set i { p with pc := .finished }).procs k P) := by
        intro P k hP
        exact hasAt_set_of_iff hq' hP
      refine hfinish.shift (fun k v => hkeep Iff.rfl) ?_ ?_
      · rintro v ⟨k, hk⟩
        exact ⟨k, (hkeep Iff.rfl).mp hk⟩
      · rintro v ⟨k, hk⟩
        exact Or.inl ⟨k, (hkeep Iff.rfl).mpr hk⟩

/-- **Every schedule.** What one step keeps holds throughout. -/
theorem mutex_ok {tr : List Event} (h : Reaches (crawl f start) tr s) : MutexOk f start (fetches tr) s := by
  refine Reaches.invariant (P := fun tr s => MutexOk f start (fetches tr) s) mutex_init ?_ h
  intro tr s e s' _ hok hstep
  have hnext := hok.step hstep
  unfold fetches
  rw [filterMap_snoc]
  exact hnext

end Steps

/-! ## Return -/

section Return

variable {f : Fetcher} {start : String} {log : List String} {s : State}

/-- A settled process has no children that are not finished. -/
theorem TreeOk.child_finished (h : TreeOk s) {i j : Nat} {p q : Proc} (hp : s.procs[i]? = some p)
    (hsettled : ∀ rest, p.pc ≠ .spawning rest) (hq : s.procs[j]? = some q) (hparent : q.parent = some i) :
    q.pc = .finished := by
  have hzero := h.settled i p hp hsettled
  have hcount := h.count i p hp
  have hle := List.le_sum_of_mem (List.mem_map_of_mem (f := Proc.waits i) (List.mem_of_getElem? hq))
  by_contra hpc
  rw [Proc.waits, if_pos ⟨hparent, hpc⟩] at hle
  omega

/-- When the first call has returned, all others are finished. -/
theorem TreeOk.all_finished (h : TreeOk s) (hret : s.Returned) {i : Nat} {p : Proc} (hp : s.procs[i]? = some p)
    (hi : i ≠ 0) : p.pc = .finished := by
  induction i using Nat.strong_induction_on generalizing p with
  | _ i ih =>
      cases hparent : p.parent with
      | none => exact absurd (h.root i p hp hparent).1 hi
      | some j =>
          have hj := h.parent i p j hp hparent
          have hlt : j < s.procs.length := Nat.lt_trans hj (lt_length hp)
          have hq : s.procs[j]? = some s.procs[j] := List.getElem?_eq_getElem hlt
          by_cases hzero : j = 0
          · subst hzero
            have hpc := (hasAt_iff hq).mp hret
            exact h.child_finished hq (by simp [hpc]) hp hparent
          · have hpc := ih j hj hq hzero
            exact h.child_finished hq (by simp [hpc]) hp hparent

/-- **When the first call has returned the crawl is complete**: no process is left, so there is nothing found that was
not looked at. -/
theorem MutexOk.returned_crawls (h : MutexOk f start log s) (hret : s.Returned) : Crawls f start log := by
  have hpc : ∀ {i : Nat} {p : Proc}, s.procs[i]? = some p → p.pc = .returned ∨ p.pc = .finished := by
    intro i p hp
    by_cases hi : i = 0
    · subst hi
      exact Or.inl ((hasAt_iff hp).mp hret)
    · exact Or.inr (h.tree.all_finished hret hp hi)
  refine ⟨h.exploring.once, fun u => h.exploring.complete (fun i v hb => ?_) (fun v hf => ?_)⟩
  · obtain ⟨p, hp, hfetching, _⟩ := hb
    rcases hpc hp with hpc | hpc <;> simp [hpc] at hfetching
  · obtain ⟨i, p, hp, hoff⟩ := hf
    exact offers_none (Or.inr (hpc hp)) hoff

/-- A process that is not finished can go on, or waits for a later one that can. -/
theorem TreeOk.progress (h : TreeOk s) (f : Fetcher) {i : Nat} {p : Proc} (hp : s.procs[i]? = some p)
    (hpc : p.pc ≠ .finished) (hroot : p.pc = .returned → p.parent ≠ none) : ∃ e s', Step f s e s' := by
  have hstep : ∀ k i p, s.procs.length - i ≤ k → s.procs[i]? = some p → p.pc ≠ .finished →
      (p.pc = .returned → p.parent ≠ none) → ∃ e s', Step f s e s' := by
    intro k
    -- the induction is on how many processes come after `i`: a process that waits has a later child that has not
    -- finished
    induction k with
    | zero =>
        intro i p hk hp
        have hlt := lt_length hp
        omega
    | succ k ih =>
        intro i p hk hp hpc hroot
        cases hcase : p.pc with
        | start =>
            by_cases hseen : p.url ∈ s.fetched
            · exact ⟨_, _, .seen hp hcase hseen⟩
            · exact ⟨_, _, .mark hp hcase hseen⟩
        | fetching =>
            cases hfetch : f.fetch p.url with
            | error err => exact ⟨_, _, .fetchErr hp hcase hfetch⟩
            | ok urls => exact ⟨_, _, .fetchOk hp hcase hfetch⟩
        | spawning rest =>
            cases rest with
            | cons u rest => exact ⟨_, _, .go hp hcase⟩
            | nil =>
                by_cases hzero : p.done = 0
                · exact ⟨_, _, .wait hp hcase hzero⟩
                -- the counter is not zero, so some child is not finished
                · have hcount := h.count i p hp
                  obtain ⟨j, q, hq, hwaits⟩ := exists_of_sum_pos (w := Proc.waits i) (l := s.procs) (by omega)
                  obtain ⟨hparent, hqpc⟩ : q.parent = some i ∧ q.pc ≠ .finished := by
                    by_contra hno
                    rw [Proc.waits, if_neg hno] at hwaits
                    exact absurd hwaits (Nat.lt_irrefl 0)
                  have hlt := h.parent j q i hq hparent
                  have hlen := lt_length hq
                  exact ih j q (by omega) hq hqpc (fun _ => by simp [hparent])
        | returned =>
            obtain ⟨j, hparent⟩ := Option.ne_none_iff_exists'.mp (hroot hcase)
            have hlt : j < s.procs.length := Nat.lt_trans (h.parent i p j hp hparent) (lt_length hp)
            exact ⟨_, _, .done hp hcase hparent (List.getElem?_eq_getElem hlt)⟩
        | finished => exact absurd hcase hpc
  exact hstep _ i p (Nat.le_refl _) hp hpc hroot

/-- As long as the first call has not returned, something can be done. -/
theorem MutexOk.progress (h : MutexOk f start log s) (hret : ¬ s.Returned) : ∃ e s', Step f s e s' := by
  have hlt := h.tree.first
  have hp : s.procs[0]? = some s.procs[0] := List.getElem?_eq_getElem hlt
  have hparent : s.procs[0].parent = none := by
    cases hcase : s.procs[0].parent with
    | none => rfl
    | some j => exact absurd (h.tree.parent 0 _ j hp hcase) (Nat.not_lt_zero _)
  exact h.tree.progress f hp (h.tree.root 0 _ hp hparent).2 (fun hpc => absurd ⟨_, hp, hpc⟩ hret)

end Return

/-! ## The number of steps -/

section Work

variable {f : Fetcher} {start : String} {log : List String} {s s' : State} {e : Event}

/-- The steps a process has left, with those of the processes it will start as long as their pages are known. -/
def Proc.work (f : Fetcher) (p : Proc) : Nat :=
  match p.pc with
  | .start => 2
  | .fetching => 3 * (f.links p.url).length + 3
  | .spawning rest => 3 * rest.length + 2
  | .returned => 1
  | .finished => 0

/-- What a page that is not marked yet adds when it is. -/
def price (f : Fetcher) (u : String) : Nat := 3 * (f.links u).length + 2

/-- The budget: the steps the processes have left, and the price of every page that is not marked. -/
def State.work (f : Fetcher) (start : String) (s : State) : Nat :=
  (s.procs.map (Proc.work f)).sum + ((f.urls start).map (unspent (price f) s.fetched)).sum

variable (f start) in
theorem set_work {i : Nat} {p : Proc} (hp : s.procs[i]? = some p) (q : Proc) :
    (s.set i q).work f start + p.work f = s.work f start + q.work f := by
  have hset := sum_map_set (w := Proc.work f) hp q
  simp only [State.work, State.set]
  omega

theorem work_set {i : Nat} {p q : Proc} (hp : s.procs[i]? = some p) (hless : q.work f < p.work f) :
    (s.set i q).work f start < s.work f start := by
  have hset := set_work f start hp q
  omega

/-- **Every step takes from the budget**, which bounds the length of a schedule. -/
theorem step_work (h : MutexOk f start log s) (hstep : Step f s e s') : s'.work f start < s.work f start := by
  cases hstep with
  | seen hp hpc _ => exact work_set hp (by simp [Proc.work, hpc])
  -- the page pays for its fetch and for the processes of its links
  | @mark i p hp hpc hnew =>
      have hset := sum_map_set (w := Proc.work f) hp { p with pc := .fetching }
      have hfound : s.found p.url := (found_iff hp).mpr (Or.inl ((offers_start hpc).mpr rfl))
      have hurl := mem_urls_of_leads (h.exploring.foundFrom _ hfound)
      have hdrop : ((f.urls start).map (unspent (price f) (p.url :: s.fetched))).sum + price f p.url ≤
          ((f.urls start).map (unspent (price f) s.fetched)).sum := sum_unspent_cons hurl hnew
      have hprice : price f p.url = 3 * (f.links p.url).length + 2 := rfl
      have hold : p.work f = 2 := by simp [Proc.work, hpc]
      have hfetching : Proc.work f { p with pc := .fetching } = 3 * (f.links p.url).length + 3 := rfl
      simp only [State.work, State.set]
      omega
  | fetchErr hp hpc _ =>
      refine work_set hp ?_
      simp only [Proc.work, hpc]
      omega
  | fetchOk hp hpc hfetch =>
      refine work_set hp ?_
      simp only [Proc.work, hpc, links_of_ok hfetch]
      omega
  -- a link has three units: one for this step and two for the process that is started
  | @go i p u rest hp hpc =>
      have hset := sum_map_set (w := Proc.work f) hp { p with pc := .spawning rest, done := p.done + 1 }
      have hold : p.work f = 3 * (rest.length + 1) + 2 := by simp [Proc.work, hpc]
      have hnew : Proc.work f { p with pc := .spawning rest, done := p.done + 1 } = 3 * rest.length + 2 := rfl
      have hchild : Proc.work f (call u (some i)) = 2 := rfl
      simp only [State.work, List.map_append, List.sum_append, List.map_singleton, List.sum_singleton]
      omega
  | wait hp hpc _ =>
      refine work_set hp ?_
      simp [Proc.work, hpc]
  | @done i p j q hp hpc hparent hq =>
      have hji : j ≠ i := Nat.ne_of_lt (h.tree.parent i p j hp hparent)
      have hfinish : (s.set i { p with pc := .finished }).work f start < s.work f start :=
        work_set hp (by simp [Proc.work, hpc])
      have hq' : (s.set i { p with pc := .finished }).procs[j]? = some q := set_other hji hq _
      have hset := set_work f start hq' { q with done := q.done - 1 }
      have hsame : Proc.work f { q with done := q.done - 1 } = q.work f := rfl
      omega

theorem run_work {tr : List Event} (h : Reaches (crawl f start) tr s) :
    tr.length + s.work f start ≤ (crawl f start).init.work f start :=
  h.length_add_le (w := State.work f start) (fun _ _ _ _ hrun hstep => step_work (mutex_ok hrun) hstep)

end Work

end Mutex
end Crawler
end DistributedLabs
