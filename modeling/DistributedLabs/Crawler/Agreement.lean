import DistributedLabs.Crawler.Mutex
import DistributedLabs.Crawler.Channel

/-!
# `Crawler.Agreement` — the three crawlers make the same calls

The serial crawler is a function; the concurrent ones are transition systems, and what is said of them is said of
every schedule. `Delivers` has the three things that this takes: a schedule cannot go on forever, it cannot get stuck
before the crawl is over, and when it is over the calls are those of the crawl.

The two concurrent crawlers share no state and have nothing to say about each other: they agree because each of them
delivers the same crawl (`Crawls`), which the pages alone determine up to order. `crawlers_agree` puts that together
with the run of the serial crawler. The order of the calls is not part of it, and does differ from schedule to schedule.
-/

namespace DistributedLabs
namespace Crawler

open Lib

/-- The crawler `L`, of which `calls` reads off the calls of `Fetch` and `ended` says when it has returned, does the
    crawl from `start` under every schedule. -/
structure Delivers {σ ε : Type} (L : LTS σ ε) (calls : List ε → List String) (ended : σ → Prop) (f : Fetcher)
    (start : String) : Prop where
  bounded : ∃ bound, ∀ tr s, Reaches L tr s → tr.length ≤ bound
  goesOn : ∀ tr s, Reaches L tr s → ¬ ended s → ∃ e s', L.step s e s'
  soFar : ∀ tr s, Reaches L tr s → (calls tr).Nodup ∧ ∀ u ∈ calls tr, Leads f.links start u
  atEnd : ∀ tr s, Reaches L tr s → ended s → Crawls f start (calls tr)

/-- The crawler with a lock delivers: `step_work` bounds its schedules, `MutexOk.progress` keeps them from getting
    stuck, and `MutexOk.returned_crawls` has the calls. -/
theorem mutex_delivers (f : Fetcher) (start : String) :
    Delivers (Mutex.crawl f start) Mutex.fetches Mutex.State.Returned f start where
  bounded := by
    refine ⟨(Mutex.crawl f start).init.work f start, fun tr s hreach => ?_⟩
    have hwork := Mutex.run_work hreach
    omega
  goesOn tr s hreach hended := (Mutex.mutex_ok hreach).progress hended
  soFar tr s hreach := by
    have hexp := (Mutex.mutex_ok hreach).exploring
    exact ⟨hexp.once, hexp.log_from⟩
  atEnd tr s hreach hended := (Mutex.mutex_ok hreach).returned_crawls hended

theorem channel_delivers (f : Fetcher) (start : String) :
    Delivers (Channel.crawl f start) Channel.fetches (fun s => s.coord = .stopped) f start where
  bounded := by
    refine ⟨(Channel.crawl f start).init.work f start, fun tr s hreach => ?_⟩
    have hwork := Channel.run_work hreach
    omega
  goesOn tr s hreach hended := (Channel.channel_ok hreach).count.progress f hended
  soFar tr s hreach := by
    have hexp := (Channel.channel_ok hreach).exploring
    exact ⟨hexp.once, hexp.log_from⟩
  atEnd tr s hreach hended := (Channel.channel_ok hreach).stopped_crawls hended

/-- **The three crawlers agree.** Each calls `Fetch` once on every URL that is reached from the start, and on nothing
    else; of the concurrent ones that holds of every schedule, each of which ends. -/
theorem crawlers_agree (f : Fetcher) (start : String) :
    (∀ fuel, (f.urls start).length < fuel →
      ∃ st, serial f fuel ⟨[], []⟩ start = some st ∧ Crawls f start st.calls) ∧
    Delivers (Mutex.crawl f start) Mutex.fetches Mutex.State.Returned f start ∧
    Delivers (Channel.crawl f start) Channel.fetches (fun s => s.coord = .stopped) f start ∧
    ∀ tr s, Reaches (Channel.crawl f start) tr s →
      (s.coord = .receiving → s.n = s.slices) ∧
      (s.coord = .stopped → (∀ p ∈ s.senders, p = .finished) ∧
        ∀ u, Leads f.links start u → u ∈ Channel.fetches tr) := by
  refine ⟨fun fuel hfuel => serial_crawls f start hfuel, mutex_delivers f start, channel_delivers f start, ?_⟩
  intro tr s hreach
  have hok := Channel.channel_ok hreach
  refine ⟨fun hcoord => ?_, fun hcoord => ⟨fun p hp => ?_, fun u hu => ?_⟩⟩
  · exact hok.count.receiving hcoord
  · obtain ⟨i, hi⟩ := List.mem_iff_getElem?.mp hp
    exact hok.count.stopped hcoord hi
  · exact ((hok.stopped_crawls hcoord).2 u).mpr hu

end Crawler
end DistributedLabs
