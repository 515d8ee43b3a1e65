import DistributedLabs.Lib.Search

/-!
# `Lib.Explore` — several processes search one graph

Processes that share a set of marks look into the nodes of a graph. A node is found, marked by one process, looked
into by that process once (it is then in the log), and the nodes it leads to are found in turn. How the processes
keep what they have found, and who marks it, is left open: `found` and `busy` are read off their states.

`Exploring` is what holds at every moment. There is one rule for each thing that can happen: `mark`, `look`, and
`shift` for anything that merely passes on what was found or drops what is marked already. When nobody is busy and
nothing is left that was found, the log is what the start leads to (`Exploring.complete`).

A client states `Exploring` of its own `busy` and `found`, and shows for each of its steps which rule it is an instance
of. That the search comes to an end is not part of this: it takes a measure over the client's own states.
-/

namespace DistributedLabs
namespace Lib

variable {α : Type}

/-- The marked nodes, the log, who is busy with which node, and what was found and is not yet marked. -/
structure Exploring (next : α → List α) (start : α) (marked log : List α) (busy : Nat → α → Prop)
    (found : α → Prop) : Prop where
  once : log.Nodup
  logged : ∀ u ∈ log, u ∈ marked
  busyMarked : ∀ i u, busy i u → u ∈ marked ∧ u ∉ log
  busyAlone : ∀ i j u, busy i u → busy j u → i = j
  covered : ∀ u ∈ marked, u ∈ log ∨ ∃ i, busy i u
  markedFrom : ∀ u ∈ marked, Leads next start u
  foundFrom : ∀ u, found u → Leads next start u
  begun : start ∈ marked ∨ found start
  linked : ∀ u ∈ log, ∀ v ∈ next u, v ∈ marked ∨ found v

section Rules

variable {next : α → List α} {start u : α} {marked log : List α} {busy busy' : Nat → α → Prop}
  {found found' : α → Prop} {i : Nat}

theorem Exploring.init (h : ∀ v, found v ↔ v = start) (hidle : ∀ i v, ¬ busy i v) :
    Exploring next start [] [] busy found where
  once := List.nodup_nil
  logged := by simp
  busyMarked := fun i v hb => absurd hb (hidle i v)
  busyAlone := fun i _ v hb _ => absurd hb (hidle i v)
  covered := by simp
  markedFrom := by simp
  foundFrom := fun v hv => (h v).mp hv ▸ Relation.ReflTransGen.refl
  begun := Or.inr ((h start).mpr rfl)
  linked := by simp

/-- A step that looks into no node adds nothing to the log. -/
theorem Exploring.silent {x : Option α} (hx : x = none) (h : Exploring next start marked log busy found) :
    Exploring next start marked (log ++ x.toList) busy found := by
  rw [hx, Option.toList_none, List.append_nil]
  exact h

/-- What was found is passed on, or dropped if it is marked. -/
theorem Exploring.shift (h : Exploring next start marked log busy found)
    (hbusy : ∀ j v, busy' j v ↔ busy j v) (hold : ∀ v, found' v → found v)
    (hkeep : ∀ v, found v → found' v ∨ v ∈ marked) : Exploring next start marked log busy' found' where
  once := h.once
  logged := h.logged
  busyMarked := fun j v hb => h.busyMarked j v ((hbusy j v).mp hb)
  busyAlone := fun j k v hj hk => h.busyAlone j k v ((hbusy j v).mp hj) ((hbusy k v).mp hk)
  covered := fun v hv => (h.covered v hv).imp id (fun ⟨j, hj⟩ => ⟨j, (hbusy j v).mpr hj⟩)
  markedFrom := h.markedFrom
  foundFrom := fun v hv => h.foundFrom v (hold v hv)
  begun := h.begun.elim Or.inl (fun hs => (hkeep start hs).symm)
  linked := fun v hv w hw => (h.linked v hv w hw).elim Or.inl (fun hf => (hkeep w hf).symm)

/-- A node that was found is marked, by the process that will look into it. -/
theorem Exploring.mark (h : Exploring next start marked log busy found) (hu : found u) (hnew : u ∉ marked)
    (hbusy : ∀ j v, busy' j v ↔ busy j v ∨ (j = i ∧ v = u)) (hold : ∀ v, found' v → found v)
    (hkeep : ∀ v, found v → found' v ∨ v = u) : Exploring next start (u :: marked) log busy' found' := by
  -- whoever is busy with an item has marked it
  have hfresh : ∀ j, ¬ busy j u := fun j hb => hnew (h.busyMarked j u hb).1
  have hmarked : ∀ v, v ∈ marked ∨ found v → v ∈ u :: marked ∨ found' v := by
    rintro v (hv | hv)
    · exact Or.inl (List.mem_cons_of_mem _ hv)
    · rcases hkeep v hv with hv | rfl
      · exact Or.inr hv
      · exact Or.inl (List.mem_cons_self ..)
  constructor
  · exact h.once
  · exact fun v hv => List.mem_cons_of_mem _ (h.logged v hv)
  · intro j v hb
    rcases (hbusy j v).mp hb with hb | ⟨_, rfl⟩
    · obtain ⟨hm, hl⟩ := h.busyMarked j v hb
      exact ⟨List.mem_cons_of_mem _ hm, hl⟩
    · exact ⟨List.mem_cons_self .., fun hl => hnew (h.logged _ hl)⟩
  · intro j k v hj hk
    rcases (hbusy j v).mp hj with hj | ⟨rfl, rfl⟩ <;> rcases (hbusy k v).mp hk with hk | ⟨rfl, hv⟩
    · exact h.busyAlone j k v hj hk
    · exact absurd (hv ▸ hj) (hfresh j)
    · exact absurd hk (hfresh k)
    · rfl
  · intro v hv
    rcases List.mem_cons.mp hv with rfl | hv
    · exact Or.inr ⟨i, (hbusy i v).mpr (Or.inr ⟨rfl, rfl⟩)⟩
    · exact (h.covered v hv).imp id (fun ⟨j, hj⟩ => ⟨j, (hbusy j v).mpr (Or.inl hj)⟩)
  · intro v hv
    rcases List.mem_cons.mp hv with rfl | hv
    · exact h.foundFrom v hu
    · exact h.markedFrom v hv
  · exact fun v hv => h.foundFrom v (hold v hv)
  · exact hmarked start h.begun
  · exact fun v hv w hw => hmarked w (h.linked v hv w hw)

/-- A process looks into its node and finds what it leads to. -/
theorem Exploring.look (h : Exploring next start marked log busy found) (hu : busy i u)
    (hbusy : ∀ j v, busy' j v ↔ busy j v ∧ j ≠ i) (hold : ∀ v, found' v ↔ found v ∨ v ∈ next u)
    (hone : ∀ v, busy i v → v = u) : Exploring next start marked (log ++ [u]) busy' found' := by
  obtain ⟨hmarked, hnew⟩ := h.busyMarked i u hu
  constructor
  · rw [List.nodup_append']
    exact ⟨h.once, List.nodup_singleton _, fun v hv hv' => hnew (List.mem_singleton.mp hv' ▸ hv)⟩
  · intro v hv
    rcases List.mem_append.mp hv with hv | hv
    · exact h.logged v hv
    · exact List.mem_singleton.mp hv ▸ hmarked
  · intro j v hb
    obtain ⟨hb, hne⟩ := (hbusy j v).mp hb
    obtain ⟨hm, hl⟩ := h.busyMarked j v hb
    refine ⟨hm, fun hv => ?_⟩
    rcases List.mem_append.mp hv with hv | hv
    · exact hl hv
    -- nobody else is busy with `u`
    · exact hne (h.busyAlone j i u (List.mem_singleton.mp hv ▸ hb) hu)
  · exact fun j k v hj hk => h.busyAlone j k v ((hbusy j v).mp hj).1 ((hbusy k v).mp hk).1
  · intro v hv
    rcases h.covered v hv with hl | ⟨j, hj⟩
    · exact Or.inl (List.mem_append_left _ hl)
    · by_cases hji : j = i
      · rw [hone v (hji ▸ hj)]
        exact Or.inl (List.mem_append_right _ (List.mem_singleton_self u))
      · exact Or.inr ⟨j, (hbusy j v).mpr ⟨hj, hji⟩⟩
  · exact h.markedFrom
  · intro v hv
    rcases (hold v).mp hv with hv | hv
    · exact h.foundFrom v hv
    · exact (h.markedFrom u hmarked).tail hv
  · exact h.begun.imp id (fun hs => (hold start).mpr (Or.inl hs))
  · intro v hv w hw
    rcases List.mem_append.mp hv with hv | hv
    · exact (h.linked v hv w hw).imp id (fun hf => (hold w).mpr (Or.inl hf))
    -- what `u` leads to has been found now
    · exact Or.inr ((hold w).mpr (Or.inr (List.mem_singleton.mp hv ▸ hw)))

theorem Exploring.log_from (h : Exploring next start marked log busy found) : ∀ v ∈ log, Leads next start v :=
  fun v hv => h.markedFrom v (h.logged v hv)

/-- **A search that is over has looked into everything**, and into nothing else. -/
theorem Exploring.complete (h : Exploring next start marked log busy found) (hidle : ∀ i v, ¬ busy i v)
    (hnone : ∀ v, ¬ found v) {v : α} : v ∈ log ↔ Leads next start v := by
  have hlog : ∀ v ∈ marked, v ∈ log := fun v hv => (h.covered v hv).resolve_right (fun ⟨i, hi⟩ => hidle i v hi)
  refine ⟨h.log_from v, fun hlead => ?_⟩
  refine hlead.closed (S := (· ∈ log)) ?_ (hlog start (h.begun.resolve_right (hnone start)))
  intro y hy z hz
  exact hlog z ((h.linked y hy z hz).resolve_right (hnone z))

end Rules

end Lib
end DistributedLabs
