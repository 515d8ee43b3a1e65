import DistributedLabs.Lib.Search
import DistributedLabs.Lib.Pool
import Mathlib.Data.List.AList

/-!
# `Crawler.Serial` — the pages and the serial crawler

`lecutures/crawler.go` has three crawlers that call `Fetch` on a page and on what it links to, each page once. This
module has the pages and the first crawler, a recursion with a map of what has been fetched. `Crawls` is what all
three are for.

The recursion of `Serial` is bounded by the map and not by its arguments: a call goes on only from a page that was not
in the map, and puts it there. The model gives it `fuel` to be a function, and `serial_crawls` shows that the number of
URLs on the pages is enough, so that the crawler returns. That it is a depth-first search, with the map as the set of
visited nodes, is `serial_eq_visit`; what such a search visits is a fact about searches (`Lib.Search`).
-/

namespace DistributedLabs
namespace Crawler

open Lib

/-! ## Pages -/

/-- A page of the fake fetcher: its text, and the URLs it links to. -/
structure FakeResult where
  body : String
  urls : List String
deriving DecidableEq, Repr

/-- `fakeFetcher`: pages under their URLs. -/
abbrev Fetcher := AList (fun _ : String => FakeResult)

/-- `Fetch`: the links of a page, or the error for a URL without one. -/
def Fetcher.fetch (f : Fetcher) (url : String) : Except String (List String) :=
  match f.lookup url with
  | some res => .ok res.urls
  | none => .error ("not found: " ++ url)

/-- Where the crawlers go on from a page: nowhere if it cannot be fetched. -/
def Fetcher.links (f : Fetcher) (url : String) : List String :=
  match f.fetch url with
  | .ok urls => urls
  | .error _ => []

/-- The start and every URL that occurs on a page. -/
def Fetcher.urls (f : Fetcher) (start : String) : List String := start :: f.entries.flatMap (fun x => x.2.urls)

theorem links_of_ok {f : Fetcher} {url : String} {urls : List String} (h : f.fetch url = .ok urls) :
    f.links url = urls := by
  unfold Fetcher.links
  rw [h]

theorem links_of_error {f : Fetcher} {url err : String} (h : f.fetch url = .error err) : f.links url = [] := by
  unfold Fetcher.links
  rw [h]

/-- A link is on a page, and there are only so many pages. -/
theorem mem_urls_of_link {f : Fetcher} {start url v : String} (h : v ∈ f.links url) : v ∈ f.urls start := by
  unfold Fetcher.links Fetcher.fetch at h
  cases hpage : f.lookup url with
  | none =>
      rw [hpage] at h
      cases h
  | some res =>
      rw [hpage] at h
      have hentry : Sigma.mk url res ∈ f.entries := AList.mem_lookup_iff.mp hpage
      exact List.mem_cons_of_mem _ (List.mem_flatMap.mpr ⟨_, hentry, h⟩)

theorem mem_urls_of_leads {f : Fetcher} {start v : String} (h : Leads f.links start v) : v ∈ f.urls start :=
  h.closed (S := (· ∈ f.urls start)) (fun _ _ _ hz => mem_urls_of_link hz) (List.mem_cons_self ..)

/-- The calls of `Fetch` that a crawl from `start` is to make, in any order: one for each URL that is reached
    through pages that can be fetched. -/
def Crawls (f : Fetcher) (start : String) (calls : List String) : Prop :=
  calls.Nodup ∧ ∀ u, u ∈ calls ↔ Leads f.links start u

/-! ## The serial crawler -/

/-- The map, and the calls of `Fetch` so far, newest first. -/
structure SerialState where
  fetched : List String
  calls : List String
deriving DecidableEq, Repr

/-- `Serial`, at most `fuel` deep. -/
def serial (f : Fetcher) : Nat → SerialState → String → Option SerialState
  | 0, _, _ => none
  | fuel + 1, st, url =>
      if url ∈ st.fetched then some st
      else
        let st : SerialState := { fetched := url :: st.fetched, calls := url :: st.calls }
        match f.fetch url with
        | .error _ => some st
        | .ok urls => urls.foldlM (serial f fuel) st

/-- The map has what has been fetched, so that the serial crawler is a search. -/
theorem serial_eq_visit (f : Fetcher) (fuel : Nat) (seen : List String) (url : String) :
    serial f fuel ⟨seen, seen⟩ url = (visit f.links fuel url seen).map (fun seen => ⟨seen, seen⟩) := by
  induction fuel generalizing seen url with
  | zero => rfl
  | succ fuel ih =>
      unfold serial visit
      by_cases hin : url ∈ seen
      · rw [if_pos hin, if_pos hin]
        rfl
      · rw [if_neg hin, if_neg hin]
        dsimp only
        cases hfetch : f.fetch url with
        | error err =>
            rw [links_of_error hfetch]
            rfl
        | ok urls =>
            rw [links_of_ok hfetch]
            have hloop := foldlM_project (g := serial f fuel) (fun seen : List String => (⟨seen, seen⟩ : SerialState))
              id (fun seen url => (ih seen url).symm) urls (url :: seen)
            rw [List.map_id] at hloop
            exact hloop.symm

/-- With an empty map it returns, and has made the calls. -/
theorem serial_crawls (f : Fetcher) (start : String) {fuel : Nat} (hfuel : (f.urls start).length < fuel) :
    ∃ st, serial f fuel ⟨[], []⟩ start = some st ∧ Crawls f start st.calls := by
  have hcard : (unmarked (f.urls start).toFinset []).card < fuel := by
    apply Nat.lt_of_le_of_lt (Finset.card_filter_le ..)
    exact Nat.lt_of_le_of_lt (List.toFinset_card_le _) hfuel
  have hclosed : ∀ y ∈ (f.urls start).toFinset, ∀ z ∈ f.links y, z ∈ (f.urls start).toFinset :=
    fun _ _ _ hz => List.mem_toFinset.mpr (mem_urls_of_link hz)
  have hstart : start ∈ (f.urls start).toFinset := List.mem_toFinset.mpr (List.mem_cons_self ..)
  obtain ⟨seen, hseen⟩ := visit_some hclosed hstart hcard
  have hexplored := visit_explored hseen
  refine ⟨⟨seen, seen⟩, by rw [serial_eq_visit, hseen]; rfl, hexplored.nodup List.nodup_nil, fun u => ?_⟩
  rw [hexplored.mem_iff (by simp)]
  simp

end Crawler
end DistributedLabs
