/- GID: Wnza/Server/CacheRuns
   generality: I
   source: src/session.cc (process_req), include/server.h
   digest: Where the entries of the shared cache come from, over whole runs of `process_req`. -/

import Wnza.Server.Steps
import Wnza.Session.Transparency

set_option autoImplicit false
set_option relaxedAutoImplicit false

namespace Wnza.Server.CacheRuns

open Wnza.Http.Text
open Wnza.Http.Parser
open Wnza.Handler.Basic
open Wnza.Handler.Echo
open Wnza.Session.Dispatch
open Wnza.Session.Transparency
open Wnza.Server.Steps

/-- A call of `process_req` that returned, with the cache before and after it. -/
structure Call where
  world : World
  request : Request
  before : Cache
  after : Cache
  processed : Processed

/-- The calls made so far by any sessions on one table and one cache, which was empty before
them, and the cache they leave. -/
inductive Run (locations : Locations) : List Call → Cache → Prop
  | start : Run locations [] ∅
  | call {past : List Call} {cache after : Cache} {w : World} {req : Request} {res : Response}
      (earlier : Run locations past cache)
      (returned : (processReq locations w req cache).result = .ok (res, after)) :
      Run locations (past ++ [⟨w, req, cache, after, processReq locations w req cache⟩]) after

/-- The handler of the location that the dispatch loop selects for the URI was invoked by one of
the calls, on a valid request for the URI, and returned this response. -/
def Origin (locations : Locations) (calls : List Call) (uri : Bytes) (res : Response) : Prop :=
  ∃ c ∈ calls, c.request.uri = uri ∧ c.request.method ≠ .INVALID ∧
    ∃ key handler, route locations uri = .ok (some key) ∧ locations[key]? = some handler ∧
      c.processed.invoked = [key] ∧ handler.handleRequest c.world c.request = .ok res

def invocations (calls : List Call) (uri : Bytes) : List Bytes :=
  (calls.filter (fun c => c.request.uri = uri)).flatMap (fun c => c.processed.invoked)

/-- What the calls of a run and the cache they leave have to do with each other. -/
structure CacheInvariant (locations : Locations) (calls : List Call) (cache : Cache) : Prop where
  origin : ∀ uri res, cache[uri]? = some res → Origin locations calls uri res
  kept : ∀ c ∈ calls, ∀ uri ∈ c.after, uri ∈ cache
  unchanged : ∀ c ∈ calls, ∀ uri res, uri ≠ lit "/status" → c.after[uri]? = some res →
    cache[uri]? = some res
  once : ∀ uri, uri ≠ lit "/status" → (invocations calls uri).length ≤ 1
  unmatched : ∀ c ∈ calls,
    c.request.method = .INVALID ∨ route locations c.request.uri = .ok none → c.after = c.before

section Calls

variable {locations : Locations} {calls : List Call} {cache after : Cache} {w : World}
  {req : Request} {res : Response} {uri : Bytes}

private theorem returned_cases
    (returned : (processReq locations w req cache).result = .ok (res, after)) :
    (after = cache ∧ (processReq locations w req cache).invoked = []) ∨
    (cached cache req.uri = none ∧ req.method ≠ .INVALID ∧
      ∃ key handler, route locations req.uri = .ok (some key) ∧
        locations[key]? = some handler ∧ handler.handleRequest w req = .ok res ∧
        (processReq locations w req cache).invoked = [key] ∧
        after = cache.insert req.uri res) := by
  obtain ⟨hit, rfl⟩ | ⟨fresh, unrouted, rfl⟩ |
    ⟨fresh, valid, key, handler, routed, found, hres, rfl⟩ :=
    processReq_ok returned
  · exact .inl ⟨rfl, by simp only [processReq, hit]⟩
  · exact .inl ⟨rfl, by rw [processReq_of_unrouted w fresh unrouted, refuse]⟩
  · have invoked := (processReq_of_routed w valid fresh routed found).1
    exact .inr ⟨fresh, valid, key, handler, routed, found, hres, invoked, rfl⟩

private theorem mem_of_returned
    (returned : (processReq locations w req cache).result = .ok (res, after))
    (huri : uri ∈ cache) : uri ∈ after := by
  obtain ⟨rfl, -⟩ | ⟨-, -, -, -, -, -, -, -, rfl⟩ := returned_cases returned
  · exact huri
  · exact Std.ExtTreeMap.mem_insert.mpr (.inr huri)

private theorem entry_of_returned
    (returned : (processReq locations w req cache).result = .ok (res, after))
    (hstatus : uri ≠ lit "/status") {r : Response} (entry : cache[uri]? = some r) :
    after[uri]? = some r := by
  by_cases huri : req.uri = uri
  · subst huri
    obtain ⟨rfl, -⟩ | ⟨fresh, -⟩ := returned_cases returned
    · exact entry
    · rw [cached_eq hstatus, entry] at fresh
      cases fresh
  · rw [getElem?_of_served returned huri, entry]

private theorem invocations_concat (c : Call) :
    invocations (calls ++ [c]) uri =
      invocations calls uri ++ if c.request.uri = uri then c.processed.invoked else [] := by
  rw [invocations, List.filter_append, List.flatMap_append, ← invocations]
  congr 1
  by_cases huri : c.request.uri = uri
  · simp [huri]
  · simp [huri]

private theorem Origin.concat (h : Origin locations calls uri res) (c : Call) :
    Origin locations (calls ++ [c]) uri res := by
  obtain ⟨d, hd, rest⟩ := h
  exact ⟨d, List.mem_append_left _ hd, rest⟩

def Stored (calls : List Call) (cache : Cache) : Prop :=
  ∀ uri, invocations calls uri ≠ [] → uri ∈ cache

private theorem Stored.call (h : Stored calls cache)
    (returned : (processReq locations w req cache).result = .ok (res, after)) :
    Stored (calls ++ [⟨w, req, cache, after, processReq locations w req cache⟩]) after := by
  intro uri some
  rw [invocations_concat] at some
  by_cases huri : req.uri = uri
  · subst huri
    obtain ⟨rfl, invoked⟩ | ⟨-, -, -, -, -, -, -, -, rfl⟩ := returned_cases returned
    · exact h req.uri (by simpa [invoked] using some)
    · exact Std.ExtTreeMap.mem_insert_self
  · exact mem_of_returned returned (h uri (by simpa [huri] using some))

private theorem origin_call (inv : CacheInvariant locations calls cache)
    (returned : (processReq locations w req cache).result = .ok (res, after)) {r : Response}
    (entry : after[uri]? = some r) :
    Origin locations
      (calls ++ [⟨w, req, cache, after, processReq locations w req cache⟩]) uri r := by
  obtain ⟨rfl, -⟩ | ⟨-, valid, key, handler, routed, found, hres, invoked, rfl⟩ :=
    returned_cases returned
  · exact (inv.origin uri r entry).concat _
  · by_cases huri : req.uri = uri
    · subst huri
      rw [Std.ExtTreeMap.getElem?_insert_self, Option.some.injEq] at entry
      subst entry
      exact ⟨_, List.mem_append_right _ List.mem_cons_self, rfl, valid, key, handler, routed,
        found, invoked, hres⟩
    · rw [getElem?_of_served returned huri] at entry
      exact (inv.origin uri r entry).concat _

private theorem once_call (inv : CacheInvariant locations calls cache) (stored : Stored calls cache)
    (returned : (processReq locations w req cache).result = .ok (res, after))
    (hstatus : uri ≠ lit "/status") :
    (invocations (calls ++ [⟨w, req, cache, after, processReq locations w req cache⟩])
      uri).length ≤ 1 := by
  rw [invocations_concat]
  by_cases huri : req.uri = uri
  · subst huri
    simp only [if_true]
    obtain ⟨-, invoked⟩ | ⟨fresh, -, key, handler, -, -, -, invoked, -⟩ := returned_cases returned
    · simpa [invoked] using inv.once req.uri hstatus
    · -- the cache did not answer, so no handler was invoked for the URI before
      have none : invocations calls req.uri = [] := by
        by_contra some
        have entry := Std.ExtTreeMap.mem_iff_isSome_getElem?.mp (stored req.uri some)
        rw [← cached_eq hstatus, fresh] at entry
        cases entry
      simp [none, invoked]
  · simpa [huri] using inv.once uri hstatus

private theorem unmatched_call
    (returned : (processReq locations w req cache).result = .ok (res, after))
    (unmatched : req.method = .INVALID ∨ route locations req.uri = .ok none) : after = cache := by
  obtain ⟨rfl, -⟩ | ⟨-, valid, key, handler, routed, -⟩ := returned_cases returned
  · rfl
  · rcases unmatched with invalid | unrouted
    · exact absurd invalid valid
    · cases routed.symm.trans unrouted

private theorem CacheInvariant.call (inv : CacheInvariant locations calls cache)
    (stored : Stored calls cache)
    (returned : (processReq locations w req cache).result = .ok (res, after)) :
    CacheInvariant locations
      (calls ++ [⟨w, req, cache, after, processReq locations w req cache⟩]) after := by
  refine ⟨?_, ?_, ?_, ?_, ?_⟩
  · intro uri r entry
    exact origin_call inv returned entry
  · exact forall_mem_concat
      (fun c hc uri huri => mem_of_returned returned (inv.kept c hc uri huri))
      (fun uri huri => huri)
  · exact forall_mem_concat
      (fun c hc uri r hstatus entry =>
        entry_of_returned returned hstatus (inv.unchanged c hc uri r hstatus entry))
      (fun uri r _ entry => entry)
  · intro uri hstatus
    exact once_call inv stored returned hstatus
  · exact forall_mem_concat inv.unmatched (unmatched_call returned)

private theorem Run.invariant (run : Run locations calls cache) :
    CacheInvariant locations calls cache ∧ Stored calls cache := by
  induction run with
  | start =>
      refine ⟨⟨by simp, by simp, by simp, by simp [invocations], by simp⟩, ?_⟩
      intro uri some
      simp [invocations] at some
  | call _ returned ih => exact ⟨ih.1.call ih.2 returned, ih.2.call returned⟩

end Calls

/-- In every run of calls, by any sessions in any order: each entry comes from the handler of the
selected location, entries stay, only the status page is ever invoked twice or replaced, and a
request without a location adds nothing. -/
theorem cache_invariant (locations : Locations) (calls : List Call) (cache : Cache)
    (run : Run locations calls cache) : CacheInvariant locations calls cache :=
  run.invariant.1

/-- Two requests for one URI, the second of which finds the answer of the first. -/
theorem cache_invariant_repeated :
    ∃ calls cache, Run echoLocations calls cache ∧ calls.length = 2 ∧
      (invocations calls (lit "/echo/")).length = 1 ∧ CacheInvariant echoLocations calls cache := by
  have first : Run echoLocations ([] ++ [⟨⟨fun _ => none, []⟩,
      ⟨.GET, lit "/echo/", lit "HTTP/1.1", ∅, []⟩, ∅, _, _⟩]) _ :=
    .call .start rfl
  have second : Run echoLocations (([] ++ [⟨⟨fun _ => none, []⟩,
      ⟨.GET, lit "/echo/", lit "HTTP/1.1", ∅, []⟩, ∅, _, _⟩]) ++ [⟨⟨fun _ => none, []⟩,
      ⟨.POST, lit "/echo/", lit "HTTP/1.1", ∅, []⟩, _, _, _⟩]) _ :=
    .call first rfl
  exact ⟨_, _, second, rfl, rfl, cache_invariant _ _ _ second⟩

def Recorded (calls : List Call) (a : Answer) : Prop :=
  ∃ c ∈ calls, c.request = a.delivery.request ∧ c.before = a.before ∧ c.processed = a.processed

private theorem Recorded.concat {calls : List Call} {a : Answer} (h : Recorded calls a) (c : Call) :
    Recorded (calls ++ [c]) a := by
  obtain ⟨d, hd, same⟩ := h
  exact ⟨d, List.mem_append_left _ hd, same⟩

/-- The calls behind the answers of a server form a run, with the cache of the server. -/
theorem run_of_reaches {locations : Locations} {B : ServerState → Event → Prop} {σ : ServerState}
    (h : Reaches locations B σ) :
    ∃ calls, Run locations calls σ.cache ∧ ∀ c ∈ σ.clients, ∀ a ∈ c.answers, Recorded calls a := by
  induction h with
  | start => exact ⟨[], .start, by simp [ServerState.started]⟩
  | step _ _ next ih =>
      obtain ⟨calls, run, answered⟩ := ih
      cases next with
      | accept =>
          exact ⟨calls, run, forall_mem_concat answered (by simp [Client.connected])⟩
      | @read i data c out reports t client idle size received =>
          refine ⟨calls, run, fun d hd => ?_⟩
          rcases List.mem_or_eq_of_mem_set hd with hd | rfl
          · exact answered d hd
          · exact answered c (List.mem_of_getElem? client)
      | @work i w c d rest res cache client pending served =>
          refine ⟨_, .call run served, fun x hx => ?_⟩
          rcases List.mem_or_eq_of_mem_set hx with hx | rfl
          · exact fun a ha => (answered x hx a ha).concat _
          · exact forall_mem_concat
              (fun a ha => (answered c (List.mem_of_getElem? client) a ha).concat _)
              ⟨_, List.mem_append_right _ List.mem_cons_self, rfl, rfl, rfl⟩

end Wnza.Server.CacheRuns
