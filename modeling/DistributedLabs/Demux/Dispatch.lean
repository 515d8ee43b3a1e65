import DistributedLabs.Demux.Server
import DistributedLabs.Lib.Stream

/-!
# `Demux.Dispatch` — a call is dispatched at most once

What the trace records of a tag is what the goroutine of the tag has done so far (`RunsOk`), and no two goroutines have
one tag. So a call that reaches the server is dispatched once, with the client's name and the call's own method and
arguments, and the reply it returns is what that dispatch returned (`rpc_dispatched`).

The argument joins two sides. On the server's, a tag has one goroutine, and that dispatches once (`RunsOk.task`). On
the client's, a tag belongs to one call of `RPC` (`tag_issued_once`) and the request under it is that call's
(`Follows.own`). `Follows.result` carries the reply from the one to the other: what a call returns was given to its tag.

`RunsOk.step` has one case for each step of a goroutine, and one for all the steps that concern none (`RunsOk.quiet`).
That no tag is issued twice needs fewer than `2 ^ 32` of them, as in `Demux.Delivery`.
-/

namespace DistributedLabs
namespace Demux

open Lib

/-! ## What a goroutine has done -/

/-- The dispatch of a goroutine, if it has got to it. -/
def Task.dispatched (w : RpcCodec) (clnt : String) (k : Task) : List (String × RPCArgs) :=
  match k.pc with
  | .started => []
  | _ => ((w.readArgs k.req).map (fun a => (clnt, a))).toList

/-- What the dispatch has returned. -/
def TaskPc.results : TaskPc → List (Bytes × Bool)
  | .started | .serving => []
  | .served rep ok | .replied rep ok | .lost rep ok => [(rep, ok)]

/-- For every tag, what the trace records is what its goroutine has been through. -/
structure RunsOk (w : RpcCodec) (clnt : String) (tr : List ConnEvent) (s : Conn) : Prop where
  hello : ∀ {b}, s.hello = some b → b = w.initMsg clnt
  reading : s.pc = .reading → s.clntEnd = clnt
  name : s.tasks ≠ [] → s.clntEnd = clnt
  fresh : ∀ {t}, t ∉ s.tasks.map Task.tag → dispatches tr t = [] ∧ results tr t = []
  runs : ∀ {g : Nat} {k}, s.tasks[g]? = some k →
    dispatches tr k.tag = k.dispatched w clnt ∧ results tr k.tag = k.pc.results
  formed : .malformed ∉ tr

/-- What happens to the records of a tag. -/
structure Records (tr : List ConnEvent) (e : ConnEvent) (t : Ttag) : Prop where
  dispatches : dispatches (tr ++ [e]) t = dispatches tr t
  results : results (tr ++ [e]) t = results tr t

section Runs

variable {w : RpcCodec} {clnt : String} {tr : List ConnEvent} {s s' : Conn} {e : ConnEvent} {t : Ttag}

theorem records_quiet (hd : e.dispatch? t = none) (hr : e.dispatched? t = none) : Records tr e t :=
  ⟨filterMap_snoc_none hd, filterMap_snoc_none hr⟩

theorem formed_snoc (h : ConnEvent.malformed ∉ tr) (he : e ≠ .malformed) : .malformed ∉ tr ++ [e] := by
  intro hmem
  rcases List.mem_append.mp hmem with hold | hlast
  · exact h hold
  · exact he (List.mem_singleton.mp hlast).symm

theorem runsOk_init (w : RpcCodec) (clnt : String) : RunsOk w clnt [] (connection w clnt).init where
  hello h := (Option.some.inj h).symm
  reading h := by cases h
  name h := absurd rfl h
  fresh _ := ⟨rfl, rfl⟩
  runs h := by cases h
  formed := nofun

/-- A step that leaves the goroutines where they are. -/
theorem RunsOk.quiet (h : RunsOk w clnt tr s) (hrec : ∀ t, Records tr e t) (he : e ≠ .malformed)
    (htasks : s'.tasks = s.tasks) (hhello : ∀ {b}, s'.hello = some b → s.hello = some b)
    (hreading : s'.pc = .reading → s'.clntEnd = clnt) (hname : s'.clntEnd = s.clntEnd ∨ s'.clntEnd = clnt) :
    RunsOk w clnt (tr ++ [e]) s' where
  hello hb := h.hello (hhello hb)
  reading := hreading
  name hne := by
    rcases hname with hsame | hclnt
    · rw [hsame]
      exact h.name (htasks ▸ hne)
    · exact hclnt
  fresh {t} ht := by
    rw [(hrec t).dispatches, (hrec t).results]
    exact h.fresh (htasks ▸ ht)
  runs {g k} hk := by
    rw [(hrec k.tag).dispatches, (hrec k.tag).results]
    exact h.runs (htasks ▸ hk)
  formed := formed_snoc h.formed he

/-- A goroutine moves on, and what is recorded of its tag with it. -/
theorem RunsOk.move (h : RunsOk w clnt tr s) {g : Nat} {b : Bytes} {pc pc' : TaskPc} {clnt' : State}
    (hnodup : (s.tasks.map Task.tag).Nodup) (hg : s.tasks[g]? = some ⟨t, b, pc⟩)
    (hrec : ∀ t', t' ≠ t → Records tr e t') (he : e ≠ .malformed)
    (hd : dispatches (tr ++ [e]) t = Task.dispatched w clnt ⟨t, b, pc'⟩)
    (hr : results (tr ++ [e]) t = pc'.results) :
    RunsOk w clnt (tr ++ [e]) { s with clnt := clnt', tasks := s.tasks.set g ⟨t, b, pc'⟩ } where
  hello hb := h.hello hb
  reading hp := h.reading hp
  name _ := h.name (by rintro hnil; rw [hnil] at hg; cases hg)
  fresh {t'} ht' := by
    have htags : (s.tasks.set g ⟨t, b, pc'⟩).map Task.tag = s.tasks.map Task.tag := map_set_same hg rfl
    change t' ∉ (s.tasks.set g _).map Task.tag at ht'
    rw [htags] at ht'
    have hne : t' ≠ t := by
      rintro rfl
      exact ht' (List.mem_map.mpr ⟨_, List.mem_iff_getElem?.mpr ⟨g, hg⟩, rfl⟩)
    rw [(hrec t' hne).dispatches, (hrec t' hne).results]
    exact h.fresh ht'
  runs {g' k} hk := by
    rcases set_cases hk with ⟨_, rfl⟩ | ⟨hne, hold⟩
    · exact ⟨hd, hr⟩
    · have htag : k.tag ≠ t := fun heq => hne (task_unique hnodup hg hold heq).1
      rw [(hrec k.tag htag).dispatches, (hrec k.tag htag).results]
      exact h.runs hold
  formed := formed_snoc h.formed he

/-- A new goroutine has a tag that nothing is recorded of. -/
theorem RunsOk.receive (h : RunsOk w clnt tr s) {b : Bytes} {rest : List (Ttag × Bytes)} (hpc : s.pc = .reading)
    (hnew : t ∉ s.tasks.map Task.tag) :
    RunsOk w clnt (tr ++ [.receive])
      { s with clnt := { s.clnt with out := rest }, tasks := s.tasks ++ [⟨t, b, .started⟩] } where
  hello hb := h.hello hb
  reading hp := h.reading hp
  name _ := h.reading hpc
  fresh {t'} ht' := by
    have hrec : Records tr .receive t' := records_quiet rfl rfl
    rw [hrec.dispatches, hrec.results]
    refine h.fresh (fun hmem => ht' ?_)
    show t' ∈ (s.tasks ++ [_]).map Task.tag
    rw [List.map_append]
    exact List.mem_append_left _ hmem
  runs {g k} hk := by
    have hrec : Records tr .receive k.tag := records_quiet rfl rfl
    rw [hrec.dispatches, hrec.results]
    rcases snoc_cases hk with ⟨_, rfl⟩ | hold
    · exact h.fresh hnew
    · exact h.runs hold
  formed := formed_snoc h.formed nofun

/-- The client's calls are the calls of `RPC`. -/
theorem call_of_rpc (hrun : Reaches (connection w clnt) tr s) {c : CallId} {b : Bytes}
    (hcall : .call c b ∈ clientPart w tr) : ∃ a, .rpc c a ∈ tr ∧ b = w.rpcArgs a := by
  revert hcall
  refine Reaches.invariant (P := fun tr _ => Event.call c b ∈ clientPart w tr →
    ∃ a, ConnEvent.rpc c a ∈ tr ∧ b = w.rpcArgs a) nofun ?_ hrun
  intro tr s e s' _ ih hs hcall
  rw [clientPart, filterMap_snoc, List.mem_append] at hcall
  rcases hcall with hold | hlast
  · obtain ⟨a, ha, hb⟩ := ih hold
    exact ⟨a, List.mem_append_left _ ha, hb⟩
  · have hseen : e.seen w = some (.call c b) := Option.mem_toList.mp hlast
    cases hs with
    | @rpc c' a _ _ =>
        obtain ⟨rfl, rfl⟩ := Event.call.inj (Option.some.inj hseen)
        exact ⟨a, List.mem_append_right _ (List.mem_singleton_self _), rfl⟩
    | client hown _ =>
        cases hseen
        cases hown
    | _ => cases hseen

/-- A request in the server is the request of a call. -/
theorem Follows.rpc {out : List (Ttag × Bytes)} (h : Follows w tr s out) (hrun : Reaches (connection w clnt) tr s)
    {g : Nat} {k : Task} (hk : s.tasks[g]? = some k) :
    ∃ c a, .tag c k.tag ∈ clientPart w tr ∧ called (clientPart w tr) c = [k.req] ∧ .rpc c a ∈ tr
      ∧ k.req = w.rpcArgs a := by
  have hmem : k.msg ∈ s.tasks.map Task.msg ++ s.clnt.out :=
    List.mem_append_left _ (List.mem_map.mpr ⟨k, List.mem_iff_getElem?.mpr ⟨g, hk⟩, rfl⟩)
  obtain ⟨c, htag, hcalled⟩ := h.sent k.msg hmem
  have hcall : .call c k.req ∈ clientPart w tr := by
    have hin : k.req ∈ called (clientPart w tr) c := by
      rw [hcalled]
      exact List.mem_singleton_self _
    obtain ⟨e, he, hreq⟩ := List.mem_filterMap.mp hin
    cases e with
    | call c' b =>
        simp only [Event.called?, Option.ite_none_right_eq_some, Option.some.injEq] at hreq
        obtain ⟨rfl, rfl⟩ := hreq
        exact he
    | _ => cases hreq
  obtain ⟨a, ha, hreq⟩ := call_of_rpc hrun hcall
  exact ⟨c, a, htag, hcalled, ha, hreq⟩

/-- Every step of the connection keeps the records in step with the goroutines. -/
theorem RunsOk.step {out : List (Ttag × Bytes)} (h : RunsOk w clnt tr s) (hf : Follows w tr s out)
    (hrun : Reaches (connection w clnt) tr s) (hs : ConnStep w s e s') : RunsOk w clnt (tr ++ [e]) s' := by
  cases hs with
  | rpc _ => exact h.quiet (fun _ => records_quiet rfl rfl) nofun rfl id h.reading (Or.inl rfl)
  | client _ _ => exact h.quiet (fun _ => records_quiet rfl rfl) nofun rfl id h.reading (Or.inl rfl)
  | @accept b name _ hb hname =>
      obtain rfl := h.hello hb
      rw [w.readInit_initMsg] at hname
      have hclnt : name = clnt := (Option.some.inj hname).symm
      exact h.quiet (fun _ => records_quiet rfl rfl) nofun rfl nofun (fun _ => hclnt) (Or.inr hclnt)
  | acceptFails _ => exact h.quiet (fun _ => records_quiet rfl rfl) nofun rfl id nofun (Or.inl rfl)
  | @receive t b rest hpc hout =>
      refine h.receive hpc (fun hmem => ?_)
      have hall := hf.distinct
      rw [List.map_append, List.map_map, hout, List.nodup_append] at hall
      exact hall.2.2 t hmem t (List.mem_cons_self ..) rfl
  | receiveFails _ => exact h.quiet (fun _ => records_quiet rfl rfl) nofun rfl id nofun (Or.inl rfl)
  | @dispatch g t b a _ hg hargs =>
      have hclnt : s.clntEnd = clnt := h.name (by rintro hnil; rw [hnil] at hg; cases hg)
      refine h.move hf.nodup hg (fun t' hne => records_quiet (if_neg hne.symm) rfl) nofun ?_ ?_
      · rw [dispatches, filterMap_snoc, ← dispatches, (h.runs hg).1, hclnt]
        simp [ConnEvent.dispatch?, Task.dispatched, hargs]
      · rw [results, filterMap_snoc_none rfl, ← results, (h.runs hg).2]
        rfl
  | @malformed g t b _ hg hargs =>
      obtain ⟨_, a, _, _, _, hreq⟩ := hf.rpc hrun hg
      change b = _ at hreq
      rw [hreq, w.readArgs_rpcArgs] at hargs
      cases hargs
  | @dispatched g t b rep ok _ hg =>
      refine h.move hf.nodup hg (fun t' hne => records_quiet rfl (if_neg hne.symm)) nofun ?_ ?_
      · rw [dispatches, filterMap_snoc_none rfl, ← dispatches, (h.runs hg).1]
        rfl
      · rw [results, filterMap_snoc, ← results, (h.runs hg).2]
        simp [ConnEvent.dispatched?, TaskPc.results]
  | @reply g t b rep ok _ hg =>
      refine h.move hf.nodup hg (fun t' _ => records_quiet rfl rfl) nofun ?_ ?_
      · rw [dispatches, filterMap_snoc_none rfl, ← dispatches, (h.runs hg).1]
        rfl
      · rw [results, filterMap_snoc_none rfl, ← results, (h.runs hg).2]
        rfl
  | @replyLost g t b rep ok _ hg =>
      refine h.move hf.nodup hg (fun t' _ => records_quiet rfl rfl) nofun ?_ ?_
      · rw [dispatches, filterMap_snoc_none rfl, ← dispatches, (h.runs hg).1]
        rfl
      · rw [results, filterMap_snoc_none rfl, ← results, (h.runs hg).2]
        rfl
  | close => exact h.quiet (fun _ => records_quiet rfl rfl) nofun rfl id h.reading (Or.inl rfl)
  | die => exact h.quiet (fun _ => records_quiet rfl rfl) nofun rfl id nofun (Or.inl rfl)

theorem runsOk (hrun : Reaches (connection w clnt) tr s) (hfew : issued (clientPart w tr) < 2 ^ 32) :
    RunsOk w clnt tr s := by
  revert hfew
  refine Reaches.invariant (P := fun tr s => issued (clientPart w tr) < 2 ^ 32 → RunsOk w clnt tr s)
    (fun _ => runsOk_init w clnt) ?_ hrun
  intro tr s e s' hrun ih hs hfew
  have hbefore := Nat.lt_of_le_of_lt (issued_le_snoc tr e) hfew
  obtain ⟨out, hf⟩ := follows hrun hbefore
  exact (ih hbefore).step hf hrun hs

/-- The goroutine of a tag that was dispatched. -/
theorem RunsOk.task (h : RunsOk w clnt tr s) (hne : dispatches tr t ≠ []) :
    ∃ (g : Nat) (k : Task), s.tasks[g]? = some k ∧ k.tag = t ∧ dispatches tr t = k.dispatched w clnt := by
  by_cases ht : t ∈ s.tasks.map Task.tag
  · obtain ⟨k, hk, rfl⟩ := List.mem_map.mp ht
    obtain ⟨g, hg⟩ := List.mem_iff_getElem?.mp hk
    exact ⟨g, k, hg, rfl, (h.runs hg).1⟩
  · exact absurd (h.fresh ht).1 hne

/-- The client's tags in the whole trace. -/
theorem tag_mem {c : CallId} (h : ConnEvent.client (.tag c t) ∈ tr) : .tag c t ∈ clientPart w tr :=
  List.mem_filterMap.mpr ⟨_, h, rfl⟩

theorem tag_of_mem {c : CallId} (h : .tag c t ∈ clientPart w tr) : ConnEvent.client (.tag c t) ∈ tr := by
  obtain ⟨e, he, hseen⟩ := List.mem_filterMap.mp h
  cases e with
  | client e' =>
      cases hseen
      exact he
  | _ => cases hseen

/-- The goroutine of a call's tag has the call's own request. -/
theorem Follows.own {out : List (Ttag × Bytes)} (h : Follows w tr s out) (hrun : Reaches (connection w clnt) tr s)
    (hfew : issued (clientPart w tr) < 2 ^ 32) {c : CallId} {a : RPCArgs} (hrpc : .rpc c a ∈ tr) {g : Nat} {k : Task}
    (hk : s.tasks[g]? = some k) (htag : .tag c k.tag ∈ clientPart w tr) : k.req = w.rpcArgs a := by
  obtain ⟨c', a', htag', hcalled, hrpc', hreq⟩ := h.rpc hrun hk
  obtain rfl := (tag_issued_once h.reaches hfew).2 c c' k.tag htag htag'
  have hin : w.rpcArgs a ∈ called (clientPart w tr) c := by
    refine List.mem_filterMap.mpr ⟨.call c (w.rpcArgs a), List.mem_filterMap.mpr ⟨_, hrpc, rfl⟩, ?_⟩
    exact if_pos rfl
  rw [hcalled] at hin
  exact (List.mem_singleton.mp hin).symm

/-- A request that has been dispatched was written by its call. -/
theorem Follows.caller_wrote {out : List (Ttag × Bytes)} (h : Follows w tr s out)
    (hfew : issued (clientPart w tr) < 2 ^ 32) {c : CallId} {g : Nat} {k : Task} (hk : s.tasks[g]? = some k)
    (htag : .tag c k.tag ∈ clientPart w tr) : (s.clnt.caller c).wrote = some k.tag := by
  have hmem : k.tag ∈ (s.tasks.map Task.msg ++ s.clnt.out).map Prod.fst := by
    refine List.mem_map.mpr ⟨k.msg, List.mem_append_left _ ?_, rfl⟩
    exact List.mem_map.mpr ⟨k, List.mem_iff_getElem?.mpr ⟨g, hk⟩, rfl⟩
  obtain ⟨c', hwrote⟩ := h.wrote hfew hmem
  have htag' := (callerTrace h.reaches c').tag (Caller.tag_of_wrote hwrote)
  obtain rfl := (tag_issued_once h.reaches hfew).2 c c' k.tag htag htag'
  exact hwrote

/-- An `RPC` that returns a reply has the reply that the server gave to its tag. -/
theorem Follows.result {out : List (Ttag × Bytes)} (h : Follows w tr s out)
    (hfew : issued (clientPart w tr) < 2 ^ 32) {c : CallId} (htag : .tag c t ∈ clientPart w tr) {b : Bytes}
    (hres : (s.clnt.caller c).rpcResult = some (b, true)) : HasTask s.tasks t (· = .replied b true) := by
  have honce := calledOnce h.reaches c
  cases hc : s.clnt.caller c with
  | refused rep =>
      have hrep := honce.refusal hc
      rw [hc, hrep] at hres
      cases hres
  | returned t' rep =>
      have htag' : .tag c t' ∈ clientPart w tr :=
        (callerTrace h.reaches c).tag (show (s.clnt.caller c).tag = some t' by rw [hc]; rfl)
      obtain rfl := honce.tagOnce htag htag'
      rw [hc] at hres
      rcases (demuxOk h.reaches hfew).returned hc with rfl | ⟨herr, hans⟩
      · cases hres
      · simp only [Caller.rpcResult, herr, Option.isSome_none, Bool.false_eq_true, if_false, Option.some.injEq,
          Prod.mk.injEq] at hres
        obtain ⟨rfl, hok⟩ := hres
        rw [hok] at hans
        exact h.replied.mp hans
  | _ =>
      rw [hc] at hres
      cases hres

end Runs

/-! ## The result -/

/-- **A call is dispatched at most once.** As long as fewer than `2 ^ 32` tags are issued: the server gets no request
    that it cannot decode, and dispatches only what some call has asked for; a call is dispatched once at most, under
    the client's name and with its own method and arguments; one that is refused because the connection is closed is
    not dispatched; and one that returns a reply was dispatched, and its reply is what the dispatch returned. -/
theorem rpc_dispatched (w : RpcCodec) (clnt : String) : ∀ tr s, Reaches (connection w clnt) tr s →
    issued (clientPart w tr) < 2 ^ 32 →
    .malformed ∉ tr
    ∧ (∀ t p, p ∈ dispatches tr t → ∃ c, .rpc c p.2 ∈ tr ∧ .client (.tag c t) ∈ tr)
    ∧ ∀ c a t, .rpc c a ∈ tr → .client (.tag c t) ∈ tr →
        (dispatches tr t = [] ∨ dispatches tr t = [(clnt, a)])
        ∧ (∀ rep, s.clnt.caller c = .refused rep → dispatches tr t = [])
        ∧ ∀ b, (s.clnt.caller c).rpcResult = some (b, true) →
            dispatches tr t = [(clnt, a)] ∧ results tr t = [(b, true)] := by
  intro tr s hrun hfew
  obtain ⟨out, hf⟩ := follows hrun hfew
  have h := runsOk hrun hfew
  refine ⟨h.formed, ?_, ?_⟩
  · intro t p hp
    obtain ⟨g, k, hk, rfl, hdisp⟩ := h.task (List.ne_nil_of_mem hp)
    obtain ⟨c, a, htag, _, hrpc, hreq⟩ := hf.rpc hrun hk
    have hargs : p.2 = a := by
      rw [hdisp, Task.dispatched, hreq, w.readArgs_rpcArgs] at hp
      split at hp
      · cases hp
      · rw [List.mem_singleton.mp hp]
    exact ⟨c, hargs ▸ hrpc, tag_of_mem htag⟩
  · intro c a t hrpc htag
    have htag' : .tag c t ∈ clientPart w tr := tag_mem htag
    -- the goroutine of the tag has the call's own request, and dispatches it once or not yet
    have hone : ∀ {g : Nat} {k : Task}, s.tasks[g]? = some k → k.tag = t →
        dispatches tr t = [] ∨ dispatches tr t = [(clnt, a)] := by
      rintro g k hk rfl
      rw [(h.runs hk).1, Task.dispatched, hf.own hrun hfew hrpc hk htag', w.readArgs_rpcArgs]
      split
      · exact Or.inl rfl
      · exact Or.inr rfl
    refine ⟨?_, ?_, ?_⟩
    · by_cases hne : dispatches tr t = []
      · exact Or.inl hne
      · obtain ⟨g, k, hk, ht, _⟩ := h.task hne
        exact hone hk ht
    · intro rep hc
      by_contra hne
      obtain ⟨g, k, hk, rfl, _⟩ := h.task hne
      -- a call that was refused has written nothing
      have hwrote := hf.caller_wrote hfew hk htag'
      rw [hc] at hwrote
      cases hwrote
    · intro b hres
      obtain ⟨g, k, hk, rfl, hpc⟩ := hf.result hfew htag' hres
      obtain ⟨hdisp, hresults⟩ := h.runs hk
      rw [hdisp, hresults, hpc, Task.dispatched, hpc, hf.own hrun hfew hrpc hk htag', w.readArgs_rpcArgs]
      exact ⟨rfl, rfl⟩

instance encodableRPCArgs : Encodable RPCArgs :=
  Encodable.ofLeftInverse (fun a => (a.method, a.args)) (fun p => ⟨p.1, p.2⟩) (fun _ => rfl)

/-- The messages as numbers. -/
def plainRpcCodec : RpcCodec where
  initMsg := unary
  readInit := readUnary String
  rpcArgs := unary
  readArgs := readUnary RPCArgs
  readInit_initMsg := readUnary_unary
  readArgs_rpcArgs := readUnary_unary

/-- One call that goes through. -/
def callTrace (a : RPCArgs) : List ConnEvent :=
  [.rpc 0 a, .client (.tag 0 1), .client (.put 0), .client (.write 0), .accept, .receive, .dispatch 1 "c" a,
    .dispatched 1 [7] true, .reply 1 [7] true, .client .read, .client .remove, .client (.written 0),
    .client (.deliver 0 ⟨[7], true, none⟩)]

/-- The run of that call: it returns what the dispatch has returned. -/
theorem callTrace_reaches (w : RpcCodec) (a : RPCArgs) :
    ∃ s, Reaches (connection w "c") (callTrace a) s ∧ s.clnt.caller 0 = .returned 1 ⟨[7], true, none⟩ := by
  have hrpc : Reaches (connection w "c") [.rpc 0 a] _ := Run.nil.snoc (ConnStep.rpc (.call rfl))
  have htag := hrpc.snoc (e := (.client (.tag 0 1) : ConnEvent)) (ConnStep.client rfl (.tag rfl))
  have hput := htag.snoc (e := (.client (.put 0) : ConnEvent)) (ConnStep.client rfl (.put rfl rfl))
  have hwrite := hput.snoc (e := (.client (.write 0) : ConnEvent)) (ConnStep.client rfl (.write rfl))
  have haccept := hwrite.snoc (e := (.accept : ConnEvent)) (ConnStep.accept rfl rfl (w.readInit_initMsg "c"))
  have hreceive := haccept.snoc (e := (.receive : ConnEvent)) (ConnStep.receive rfl rfl)
  have hdispatch := hreceive.snoc (e := (.dispatch 1 "c" a : ConnEvent))
    (ConnStep.dispatch (g := 0) nofun rfl (w.readArgs_rpcArgs a))
  have hdispatched := hdispatch.snoc (e := (.dispatched 1 [7] true : ConnEvent))
    (ConnStep.dispatched (g := 0) nofun rfl)
  have hreply := hdispatched.snoc (e := (.reply 1 [7] true : ConnEvent)) (ConnStep.reply (g := 0) nofun rfl)
  have hread := hreply.snoc (e := (.client .read : ConnEvent)) (ConnStep.client rfl (.read rfl rfl))
  have hremove := hread.snoc (e := (.client .remove : ConnEvent)) (ConnStep.client rfl (.remove rfl rfl))
  have hwritten := hremove.snoc (e := (.client (.written 0) : ConnEvent)) (ConnStep.client rfl (.written rfl))
  have hdeliver := hwritten.snoc (e := (.client (.deliver 0 ⟨[7], true, none⟩) : ConnEvent))
    (ConnStep.client rfl (.deliver rfl rfl))
  exact ⟨_, hdeliver, rfl⟩

theorem rpc_dispatched_callTrace : ∃ (a : RPCArgs) (s : Conn),
    Reaches (connection plainRpcCodec "c") (callTrace a) s ∧ issued (clientPart plainRpcCodec (callTrace a)) < 2 ^ 32
    ∧ dispatches (callTrace a) 1 = [("c", a)] ∧ results (callTrace a) 1 = [([7], true)] := by
  obtain ⟨s, hrun, hc⟩ := callTrace_reaches plainRpcCodec ⟨"Forward", [1]⟩
  have hfew : issued (clientPart plainRpcCodec (callTrace ⟨"Forward", [1]⟩)) < 2 ^ 32 := show 2 < 2 ^ 32 by decide
  have hcall := (rpc_dispatched plainRpcCodec "c" _ s hrun hfew).2.2 0 ⟨"Forward", [1]⟩ 1 (List.mem_cons_self ..)
    (by decide)
  obtain ⟨hdisp, hresults⟩ := hcall.2.2 [7] (by rw [hc]; rfl)
  exact ⟨_, s, hrun, hfew, hdisp, hresults⟩

end Demux
end DistributedLabs
