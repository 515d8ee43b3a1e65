import DistributedLabs.Crawler.Serial
import DistributedLabs.Lib.Explore
import DistributedLabs.Lib.Transition

/-!
# `Crawler.Channel` — the crawler with a coordinator

`ConcurrentChannel` of `lecutures/crawler.go`. Workers fetch one page each and send its links on a channel; one
coordinator receives them, keeps the map of what has been fetched, and starts a worker for each link that is new. It
has no other sign of the end than its counter `n`.

The channel is unbuffered, so that a send and its receive are one step (`deliver`). The goroutine that sends the
first slice is a sender like the workers, but has nothing to fetch.

## The argument

* The counter is the number of slices that have not been received (`CountOk`), plus the one that is being looked at.
  So when the coordinator stops, at zero, no sender is left (`CountOk.stopped`), and as long as it has not, a sender has
  a slice to send or a page to fetch (`CountOk.progress`): the crawler does not deadlock.
* What has been marked, fetched and found is a search in progress (`Exploring`, of `Lib.Explore`). Here the coordinator
  alone marks, so no lock is needed for the map.
* Every step takes from a budget (`State.work`), as in `Crawler.Mutex`.
-/

namespace DistributedLabs
namespace Crawler
namespace Channel

open Lib

/-! ## The code -/

/-- A worker, or the goroutine of `ConcurrentChannel`. -/
inductive Sender where
  | fetching (url : String)
  | sending (urls : List String)
  | finished
deriving DecidableEq, Repr

/-- The coordinator: at the head of its loop, in the inner loop, or past the `break`. -/
inductive Coordinator where
  | receiving
  | ranging (rest : List String)
  | stopped
deriving DecidableEq, Repr

/-- The coordinator with its counter and its map, and the senders in the order in which they were started. -/
structure State where
  coord : Coordinator
  n : Int
  fetched : List String
  senders : List Sender
deriving DecidableEq, Repr

/-- The steps: of a worker, of the channel, and of the coordinator. -/
inductive Event where
  | fetch (i : Nat) (url : String)
  | deliver (i : Nat)
  | range
  | endRange
deriving DecidableEq, Repr

/-- The URL that a step calls `Fetch` on. -/
def fetchOf : Event → Option String
  | .fetch _ url => some url
  | _ => none

/-- The calls of `Fetch` in a run. -/
def fetches (tr : List Event) : List String := tr.filterMap fetchOf

/-- A step of a worker or of the coordinator; `deliver` is one of both. -/
inductive Step (f : Fetcher) : State → Event → State → Prop where
  -- if `Fetch` fails, the worker sends an empty slice
  | fetchErr {s i url err} : s.senders[i]? = some (.fetching url) → f.fetch url = .error err →
      Step f s (.fetch i url) { s with senders := s.senders.set i (.sending []) }
  | fetchOk {s i url urls} : s.senders[i]? = some (.fetching url) → f.fetch url = .ok urls →
      Step f s (.fetch i url) { s with senders := s.senders.set i (.sending urls) }
  | deliver {s i urls} : s.senders[i]? = some (.sending urls) → s.coord = .receiving →
      Step f s (.deliver i) { s with coord := .ranging urls, senders := s.senders.set i .finished }
  | known {s u rest} : s.coord = .ranging (u :: rest) → u ∈ s.fetched →
      Step f s .range { s with coord := .ranging rest }
  | new {s u rest} : s.coord = .ranging (u :: rest) → u ∉ s.fetched →
      Step f s .range { coord := .ranging rest, n := s.n + 1, fetched := u :: s.fetched,
                        senders := s.senders ++ [.fetching u] }
  | again {s} : s.coord = .ranging [] → s.n - 1 ≠ 0 →
      Step f s .endRange { s with coord := .receiving, n := s.n - 1 }
  | stop {s} : s.coord = .ranging [] → s.n - 1 = 0 →
      Step f s .endRange { s with coord := .stopped, n := s.n - 1 }

/-- `ConcurrentChannel(start, fetcher)`. -/
def crawl (f : Fetcher) (start : String) : LTS State Event :=
  ⟨{ coord := .receiving, n := 1, fetched := [], senders := [.sending [start]] }, Step f⟩

/-! ## The counter -/

/-- The slices that a sender has yet to send. -/
def Sender.slices : Sender → Nat
  | .finished => 0
  | _ => 1

/-- The slices that are still to be received. -/
def State.slices (s : State) : Nat := (s.senders.map Sender.slices).sum

/-- The counter runs ahead by the slice that is being looked at. -/
def CountOk (s : State) : Prop :=
  match s.coord with
  | .receiving => s.n = s.slices ∧ s.n ≠ 0
  | .ranging _ => s.n = s.slices + 1
  | .stopped => s.n = s.slices ∧ s.n = 0

section Count

variable {f : Fetcher} {s s' : State} {e : Event}

theorem slices_set {i : Nat} {p q : Sender} (hp : s.senders[i]? = some p) :
    ((s.senders.set i q).map Sender.slices).sum + p.slices = s.slices + q.slices :=
  sum_map_set hp q

/-- A worker that has fetched its page has its slice still to send. -/
theorem CountOk.fetch {i : Nat} {url : String} (h : CountOk s) (hp : s.senders[i]? = some (.fetching url))
    (urls : List String) : CountOk { s with senders := s.senders.set i (.sending urls) } := by
  have hset := slices_set (q := .sending urls) hp
  have hsame : ((s.senders.set i (.sending urls)).map Sender.slices).sum = s.slices := by
    simp only [Sender.slices] at hset
    omega
  unfold CountOk State.slices at h ⊢
  dsimp only
  rw [hsame]
  exact h

theorem CountOk.step (h : CountOk s) (hstep : Step f s e s') : CountOk s' := by
  cases hstep with
  | fetchErr hp _ => exact h.fetch hp _
  | fetchOk hp _ => exact h.fetch hp _
  | @deliver i urls hp hcoord =>
      have hset := slices_set (q := .finished) hp
      simp only [Sender.slices] at hset
      simp only [CountOk, hcoord] at h
      show s.n = (((s.senders.set i .finished).map Sender.slices).sum : Int) + 1
      omega
  | @known u rest hcoord _ =>
      simp only [CountOk, hcoord] at h
      exact h
  | @new u rest hcoord _ =>
      simp only [CountOk, hcoord] at h
      have hsnoc : ((s.senders ++ [Sender.fetching u]).map Sender.slices).sum = s.slices + 1 := by
        rw [List.map_append, List.sum_append]
        rfl
      show s.n + 1 = (((s.senders ++ [Sender.fetching u]).map Sender.slices).sum : Int) + 1
      omega
  | again hcoord hne =>
      simp only [CountOk, hcoord] at h
      show s.n - 1 = s.slices ∧ s.n - 1 ≠ 0
      exact ⟨by omega, hne⟩
  | stop hcoord hzero =>
      simp only [CountOk, hcoord] at h
      show s.n - 1 = s.slices ∧ s.n - 1 = 0
      exact ⟨by omega, hzero⟩

theorem CountOk.receiving (h : CountOk s) (hcoord : s.coord = .receiving) : s.n = s.slices := by
  simp only [CountOk, hcoord] at h
  exact h.1

end Count

/-! ## What has been found -/

/-- The sender has this URL in its slice. -/
def Sender.Offers (v : String) (p : Sender) : Prop := ∃ urls, p = .sending urls ∧ v ∈ urls

/-- Sender `i` is the worker that is about to fetch the page. -/
def State.busy (s : State) (i : Nat) (v : String) : Prop := HasAt s.senders i (· = .fetching v)

/-- The coordinator has the URL, or a sender does. -/
def State.found (s : State) (v : String) : Prop :=
  (∃ rest, s.coord = .ranging rest ∧ v ∈ rest) ∨ ∃ i, HasAt s.senders i (Sender.Offers v)

/-- What holds between the steps: the counter, and a search in progress. -/
structure ChannelOk (f : Fetcher) (start : String) (log : List String) (s : State) : Prop where
  count : CountOk s
  exploring : Exploring f.links start s.fetched log s.busy s.found

section Found

variable {f : Fetcher} {start : String} {log : List String} {s s' : State} {e : Event} {i : Nat}

/-- A sender that has fetched its page has the URLs of its slice. -/
theorem offers_sending {urls : List String} {v : String} : Sender.Offers v (.sending urls) ↔ v ∈ urls := by
  constructor
  · rintro ⟨urls', heq, hv⟩
    cases heq
    exact hv
  · exact fun hv => ⟨urls, rfl, hv⟩

/-- A worker that has yet to fetch its page has no URLs. -/
theorem not_offers_fetching {url v : String} : ¬ Sender.Offers v (.fetching url) := by
  rintro ⟨urls, heq, _⟩
  cases heq

/-- A sender that has sent its slice has no URLs any more. -/
theorem not_offers_finished {v : String} : ¬ Sender.Offers v .finished := by
  rintro ⟨urls, heq, _⟩
  cases heq

/-- The search starts with the first URL on its way to the coordinator and nothing marked. -/
theorem channel_init : ChannelOk f start [] (crawl f start).init := by
  refine ⟨⟨rfl, Int.one_ne_zero⟩, Exploring.init (fun v => ?_) (fun i v hb => ?_)⟩
  · constructor
    · rintro (⟨rest, hcoord, _⟩ | ⟨i, p, hp, hoff⟩)
      · cases hcoord
      · cases i with
        | zero =>
            cases hp
            exact List.mem_singleton.mp (offers_sending.mp hoff)
        | succ i => cases hp
    · rintro rfl
      exact Or.inr ⟨0, _, rfl, offers_sending.mpr (List.mem_singleton_self _)⟩
  · obtain ⟨p, hp, rfl⟩ := hb
    cases i with
    | zero => cases hp
    | succ i => cases hp

/-- Whatever `Fetch` returns, the worker has the links of its page to send. -/
theorem exploring_fetch {url : String} (h : Exploring f.links start s.fetched log s.busy s.found)
    (hp : s.senders[i]? = some (.fetching url)) :
    Exploring f.links start s.fetched (log ++ [url])
      (State.busy { s with senders := s.senders.set i (.sending (f.links url)) })
      (State.found { s with senders := s.senders.set i (.sending (f.links url)) }) := by
  refine h.look (i := i) ⟨_, hp, rfl⟩ (fun j v => ?_) (fun v => ?_) (fun v hv => ?_)
  · refine (hasAt_set hp).trans ?_
    constructor
    · rintro (⟨_, hb⟩ | ⟨hne, hb⟩)
      · cases hb
      · exact ⟨hb, hne⟩
    · exact fun hb => Or.inr ⟨hb.2, hb.1⟩
  · unfold State.found
    simp only [hasAt_set hp, offers_sending]
    constructor
    · rintro (hrest | ⟨j, ⟨_, hv⟩ | ⟨_, hj⟩⟩)
      · exact Or.inl (Or.inl hrest)
      · exact Or.inr hv
      · exact Or.inl (Or.inr ⟨j, hj⟩)
    · rintro ((hrest | ⟨j, hj⟩) | hv)
      · exact Or.inl hrest
      · refine Or.inr ⟨j, Or.inr ⟨?_, hj⟩⟩
        rintro rfl
        exact not_offers_fetching ((hasAt_iff hp).mp hj)
      · exact Or.inr ⟨i, Or.inl ⟨rfl, hv⟩⟩
  · have heq := (hasAt_iff hp).mp hv
    cases heq
    rfl

/-- The slice passes from the sender to the coordinator. -/
theorem exploring_deliver {urls : List String} (h : Exploring f.links start s.fetched log s.busy s.found)
    (hp : s.senders[i]? = some (.sending urls)) (hcoord : s.coord = .receiving) :
    Exploring f.links start s.fetched log
      (State.busy { s with coord := .ranging urls, senders := s.senders.set i .finished })
      (State.found { s with coord := .ranging urls, senders := s.senders.set i .finished }) := by
  refine h.shift (fun j v => ?_) (fun v hv => ?_) (fun v hv => Or.inl ?_)
  · exact hasAt_set_of_iff hp (iff_of_false Sender.noConfusion Sender.noConfusion)
  · rcases hv with ⟨rest, heq, hv⟩ | ⟨j, hj⟩
    · cases heq
      exact Or.inr ⟨i, _, hp, offers_sending.mpr hv⟩
    · rcases (hasAt_set hp).mp hj with ⟨_, hoff⟩ | ⟨_, hj⟩
      · exact absurd hoff not_offers_finished
      · exact Or.inr ⟨j, hj⟩
  · rcases hv with ⟨rest, heq, _⟩ | ⟨j, hj⟩
    · rw [hcoord] at heq
      cases heq
    · by_cases hji : j = i
      · subst hji
        exact Or.inl ⟨urls, rfl, offers_sending.mp ((hasAt_iff hp).mp hj)⟩
      · exact Or.inr ⟨j, (hasAt_set hp).mpr (Or.inr ⟨hji, hj⟩)⟩

/-- The coordinator drops a link that is marked. -/
theorem exploring_known {u : String} {rest : List String}
    (h : Exploring f.links start s.fetched log s.busy s.found) (hcoord : s.coord = .ranging (u :: rest))
    (hseen : u ∈ s.fetched) :
    Exploring f.links start s.fetched log (State.busy { s with coord := .ranging rest })
      (State.found { s with coord := .ranging rest }) := by
  refine h.shift (fun j v => Iff.rfl) (fun v hv => ?_) (fun v hv => ?_)
  · rcases hv with ⟨_, heq, hv⟩ | hsend
    · cases heq
      exact Or.inl ⟨_, hcoord, List.mem_cons_of_mem _ hv⟩
    · exact Or.inr hsend
  · rcases hv with ⟨_, heq, hv⟩ | hsend
    · rw [hcoord] at heq
      cases heq
      rcases List.mem_cons.mp hv with rfl | hv
      · exact Or.inr hseen
      · exact Or.inl (Or.inl ⟨rest, rfl, hv⟩)
    · exact Or.inl (Or.inr hsend)

/-- The coordinator marks a link that is new and starts a worker that fetches it. -/
theorem exploring_new {u : String} {rest : List String} {n : Int}
    (h : Exploring f.links start s.fetched log s.busy s.found) (hcoord : s.coord = .ranging (u :: rest))
    (hnew : u ∉ s.fetched) :
    Exploring f.links start (u :: s.fetched) log
      (State.busy ⟨.ranging rest, n, u :: s.fetched, s.senders ++ [.fetching u]⟩)
      (State.found ⟨.ranging rest, n, u :: s.fetched, s.senders ++ [.fetching u]⟩) := by
  -- the page is in the coordinator's hands
  have hfound : s.found u := Or.inl ⟨_, hcoord, List.mem_cons_self ..⟩
  refine h.mark (i := s.senders.length) hfound hnew (fun j v => ?_) (fun v hv => ?_) (fun v hv => ?_)
  · refine hasAt_snoc.trans ?_
    constructor
    · rintro (⟨rfl, heq⟩ | hb)
      · cases heq
        exact Or.inr ⟨rfl, rfl⟩
      · exact Or.inl hb
    · rintro (hb | ⟨rfl, rfl⟩)
      · exact Or.inr hb
      · exact Or.inl ⟨rfl, rfl⟩
  · rcases hv with ⟨_, heq, hv⟩ | ⟨j, hj⟩
    · cases heq
      exact Or.inl ⟨_, hcoord, List.mem_cons_of_mem _ hv⟩
    · rcases hasAt_snoc.mp hj with ⟨_, hoff⟩ | hj
      · exact absurd hoff not_offers_fetching
      · exact Or.inr ⟨j, hj⟩
  · rcases hv with ⟨_, heq, hv⟩ | ⟨j, hj⟩
    · rw [hcoord] at heq
      cases heq
      rcases List.mem_cons.mp hv with rfl | hv
      · exact Or.inr rfl
      · exact Or.inl (Or.inl ⟨rest, rfl, hv⟩)
    · exact Or.inl (Or.inr ⟨j, hasAt_snoc.mpr (Or.inr hj)⟩)

/-- The coordinator has come to the end of a slice. -/
theorem exploring_endRange {c : Coordinator} {n : Int}
    (h : Exploring f.links start s.fetched log s.busy s.found) (hcoord : s.coord = .ranging [])
    (hc : ∀ rest, c ≠ .ranging rest) :
    Exploring f.links start s.fetched log (State.busy { s with coord := c, n := n })
      (State.found { s with coord := c, n := n }) := by
  refine h.shift (fun j v => Iff.rfl) (fun v hv => ?_) (fun v hv => Or.inl ?_)
  · rcases hv with ⟨rest, heq, _⟩ | hsend
    · exact absurd heq (hc rest)
    · exact Or.inr hsend
  · rcases hv with ⟨rest, heq, hv⟩ | hsend
    · rw [hcoord] at heq
      cases heq
      exact absurd hv List.not_mem_nil
    · exact Or.inr hsend

/-- **One step**, of a worker, the channel or the coordinator, keeps the counter and the search. -/
theorem ChannelOk.step (h : ChannelOk f start log s) (hstep : Step f s e s') :
    ChannelOk f start (log ++ (fetchOf e).toList) s' := by
  refine ⟨h.count.step hstep, ?_⟩
  cases hstep with
  | fetchErr hp hfetch =>
      have hlook := exploring_fetch h.exploring hp
      rw [links_of_error hfetch] at hlook
      exact hlook
  | fetchOk hp hfetch =>
      have hlook := exploring_fetch h.exploring hp
      rw [links_of_ok hfetch] at hlook
      exact hlook
  | deliver hp hcoord => exact (exploring_deliver h.exploring hp hcoord).silent rfl
  | known hcoord hseen =>
      apply Exploring.silent rfl
      exact exploring_known (s := s) h.exploring hcoord hseen
  | new hcoord hnew => exact (exploring_new h.exploring hcoord hnew).silent rfl
  | again hcoord _ =>
      apply Exploring.silent rfl
      exact exploring_endRange (s := s) h.exploring hcoord (by simp)
  | stop hcoord _ =>
      apply Exploring.silent rfl
      exact exploring_endRange (s := s) h.exploring hcoord (by simp)

/-- **Every schedule.** What one step keeps holds throughout. -/
theorem channel_ok {tr : List Event} (h : Reaches (crawl f start) tr s) : ChannelOk f start (fetches tr) s := by
  refine Reaches.invariant (P := fun tr s => ChannelOk f start (fetches tr) s) channel_init ?_ h
  intro tr s e s' _ hok hstep
  have hnext := hok.step hstep
  unfold fetches
  rw [filterMap_snoc]
  exact hnext

end Found

/-! ## Stop -/

section Stop

variable {f : Fetcher} {start : String} {log : List String} {s s' : State} {e : Event}

/-- When the coordinator stops, no sender is left. -/
theorem CountOk.stopped (h : CountOk s) (hstop : s.coord = .stopped) {i : Nat} {p : Sender}
    (hp : s.senders[i]? = some p) : p = .finished := by
  simp only [CountOk, hstop] at h
  have hle : p.slices ≤ s.slices := List.le_sum_of_mem (List.mem_map_of_mem (List.mem_of_getElem? hp))
  cases p with
  | finished => rfl
  | fetching url =>
      simp only [Sender.slices] at hle
      omega
  | sending urls =>
      simp only [Sender.slices] at hle
      omega

/-- **When the coordinator has stopped the crawl is complete**: no slice is left, so there is nothing found that was
not looked at. -/
theorem ChannelOk.stopped_crawls (h : ChannelOk f start log s) (hstop : s.coord = .stopped) :
    Crawls f start log := by
  refine ⟨h.exploring.once, fun u => h.exploring.complete (fun i v hb => ?_) (fun v hf => ?_)⟩
  · obtain ⟨p, hp, rfl⟩ := hb
    cases h.count.stopped hstop hp
  · rcases hf with ⟨rest, hcoord, _⟩ | ⟨i, p, hp, hoff⟩
    · rw [hstop] at hcoord
      cases hcoord
    · rw [h.count.stopped hstop hp] at hoff
      exact not_offers_finished hoff

/-- As long as the coordinator has not stopped, something can be done: at the head of its loop there is a slice to
    come. -/
theorem CountOk.progress (h : CountOk s) (f : Fetcher) (hstop : s.coord ≠ .stopped) : ∃ e s', Step f s e s' := by
  cases hcoord : s.coord with
  | stopped => exact absurd hcoord hstop
  | ranging rest =>
      cases rest with
      | nil =>
          by_cases hzero : s.n - 1 = 0
          · exact ⟨_, _, .stop hcoord hzero⟩
          · exact ⟨_, _, .again hcoord hzero⟩
      | cons u rest =>
          by_cases hseen : u ∈ s.fetched
          · exact ⟨_, _, .known hcoord hseen⟩
          · exact ⟨_, _, .new hcoord hseen⟩
  | receiving =>
      simp only [CountOk, hcoord] at h
      have hpos : 0 < (s.senders.map Sender.slices).sum := by
        change s.n = ((s.senders.map Sender.slices).sum : Int) ∧ s.n ≠ 0 at h
        omega
      obtain ⟨i, p, hp, hslice⟩ := exists_of_sum_pos hpos
      cases p with
      | fetching url =>
          cases hfetch : f.fetch url with
          | error err => exact ⟨_, _, .fetchErr hp hfetch⟩
          | ok urls => exact ⟨_, _, .fetchOk hp hfetch⟩
      | sending urls => exact ⟨_, _, .deliver hp hcoord⟩
      | finished => exact absurd hslice (Nat.lt_irrefl 0)

/-! ## The number of steps -/

/-- The steps a sender has left, with those the coordinator takes over its slice. -/
def Sender.work (f : Fetcher) : Sender → Nat
  | .fetching url => (f.links url).length + 3
  | .sending urls => urls.length + 2
  | .finished => 0

/-- The steps the coordinator has left over the slice it is looking at. -/
def Coordinator.work : Coordinator → Nat
  | .ranging rest => rest.length + 1
  | _ => 0

/-- What a page that is not marked yet adds when it is. -/
def price (f : Fetcher) (u : String) : Nat := (f.links u).length + 3

/-- The budget: the steps of the senders and the coordinator, and the price of every page that is not marked. -/
def State.work (f : Fetcher) (start : String) (s : State) : Nat :=
  s.coord.work + (s.senders.map (Sender.work f)).sum + ((f.urls start).map (unspent (price f) s.fetched)).sum

variable (f start) in
theorem work_fetch {i : Nat} {url : String} (hp : s.senders[i]? = some (.fetching url)) :
    State.work f start { s with senders := s.senders.set i (.sending (f.links url)) } < s.work f start := by
  have hset := sum_map_set (w := Sender.work f) hp (.sending (f.links url))
  have hold : Sender.work f (.fetching url) = (f.links url).length + 3 := rfl
  have hnew : Sender.work f (.sending (f.links url)) = (f.links url).length + 2 := rfl
  unfold State.work
  dsimp only
  omega

/-- **Every step takes from the budget**, which bounds the length of a schedule. -/
theorem step_work (h : ChannelOk f start log s) (hstep : Step f s e s') : s'.work f start < s.work f start := by
  cases hstep with
  | fetchErr hp hfetch =>
      have hless := work_fetch f start hp
      rw [links_of_error hfetch] at hless
      exact hless
  | fetchOk hp hfetch =>
      have hless := work_fetch f start hp
      rw [links_of_ok hfetch] at hless
      exact hless
  | @deliver i urls hp hcoord =>
      have hset := sum_map_set (w := Sender.work f) hp .finished
      have hold : Sender.work f (.sending urls) = urls.length + 2 := rfl
      have hnew : Sender.work f .finished = 0 := rfl
      unfold State.work
      simp only [hcoord, Coordinator.work]
      omega
  | known hcoord _ =>
      unfold State.work
      simp only [hcoord, Coordinator.work, List.length_cons]
      omega
  -- a page that is marked pays for the worker that is started for it
  | @new u rest hcoord hnew =>
      have hurl := mem_urls_of_leads (h.exploring.foundFrom u (Or.inl ⟨_, hcoord, List.mem_cons_self ..⟩))
      have hdrop : ((f.urls start).map (unspent (price f) (u :: s.fetched))).sum + price f u ≤
          ((f.urls start).map (unspent (price f) s.fetched)).sum := sum_unspent_cons hurl hnew
      have hprice : price f u = Sender.work f (.fetching u) := rfl
      unfold State.work
      simp only [hcoord, Coordinator.work, List.length_cons, List.map_append, List.sum_append, List.map_singleton,
        List.sum_singleton]
      omega
  | again hcoord _ =>
      unfold State.work
      simp only [hcoord, Coordinator.work, List.length_nil]
      omega
  | stop hcoord _ =>
      unfold State.work
      simp only [hcoord, Coordinator.work, List.length_nil]
      omega

theorem run_work {tr : List Event} (h : Reaches (crawl f start) tr s) :
    tr.length + s.work f start ≤ (crawl f start).init.work f start :=
  h.length_add_le (w := State.work f start) (fun _ _ _ _ hrun hstep => step_work (channel_ok hrun) hstep)

end Stop

end Channel
end Crawler
end DistributedLabs
