/- GID: Wnza/Server/Freshness
   generality: I
   source: src/session.cc (process_req), src/server.cc, src/status_request_handler.cc
   digest: When a request for a status location is answered by its handler and not from the
     cache. -/

import Wnza.Server.Counting

set_option autoImplicit false
set_option relaxedAutoImplicit false

namespace Wnza.Server.Freshness

open Wnza.Http.Text
open Wnza.Http.Parser
open Wnza.Config.Tree
open Wnza.Handler.Basic
open Wnza.Handler.Status
open Wnza.Session.Dispatch
open Wnza.Server.Counting
open Wnza.Server.Service
open Wnza.Server.Table

/-- The handler of the location answers this request, with the page of the current log, and no
stored response is returned. -/
structure AnsweredFresh (env : Env) (locations : Locations) (req : Request) (cache : Cache)
    (key : Bytes) : Prop where
  uncached : (processReq locations env.world req cache).fromCache = false
  invoked : (processReq locations env.world req cache).invoked = [key]
  current : (processReq locations env.world req cache).result =
    .ok (statusResponse env.hostName env.logFiles env.world,
      cache.insert req.uri (statusResponse env.hostName env.logFiles env.world))

section Tables

variable {config : NginxConfig} {locations locations' : Locations}

private theorem route_congr (same : ∀ key, key ∈ locations ↔ key ∈ locations') (uri : Bytes) :
    route locations uri = route locations' uri := by
  have asymm : ∀ a b : Bytes, compare a b = .lt → compare b a = .lt → a = b :=
    fun a b hab hba => absurd hba (Std.OrientedCmp.not_lt_of_lt hab)
  have perm : locations.keys.Perm locations'.keys := by
    rw [List.perm_ext_iff_of_nodup Std.ExtTreeMap.nodup_keys Std.ExtTreeMap.nodup_keys]
    intro key
    rw [Std.ExtTreeMap.mem_keys, Std.ExtTreeMap.mem_keys]
    exact same key
  have keys : locations.keys = locations'.keys :=
    perm.eq_of_pairwise (fun a b _ _ => asymm a b) Std.ExtTreeMap.ordered_keys
      Std.ExtTreeMap.ordered_keys
  rw [route, route, keys]

private theorem mem_locationHandlers_iff {status status' : RequestHandler}
    {proxy proxy' : Wnza.Handler.ProxyTarget.ReverseProxyRequestHandler → RequestHandler}
    (built : locationHandlers status proxy config = .ok locations)
    (built' : locationHandlers status' proxy' config = .ok locations') (key : Bytes) :
    key ∈ locations ↔ key ∈ locations' := by
  unfold locationHandlers at built built'
  cases hresults : config.getLocationResult with
  | error e =>
      rw [hresults] at built
      cases built
  | ok results =>
      rw [hresults] at built built'
      rw [mem_addLocations built, mem_addLocations built']

private theorem status_of_name (env : Env) :
    OfClasses env.status env.proxy
      (fun handler => handler.getHandlerName = lit "StatusHandler" → handler = env.status) := by
  have echo : lit "EchoHandler" ≠ lit "StatusHandler" := by decide
  have health : lit "HealthHandler" ≠ lit "StatusHandler" := by decide
  have notFound : lit "NotFoundHandler" ≠ lit "StatusHandler" := by decide
  have static : lit "StaticHandler" ≠ lit "StatusHandler" := by decide
  have proxied : lit "ProxyHandler" ≠ lit "StatusHandler" := by decide
  exact ⟨fun h => absurd h echo, fun h => absurd h health, fun h => absurd h notFound,
    fun _ h => absurd h static, fun _ => rfl, fun _ h => absurd h proxied⟩

end Tables

section Runs

variable {config : NginxConfig} {calls : List Call} {cache : Cache}

private theorem built_of_mem (run : Run config calls cache) :
    ∀ c ∈ calls, locationHandlers c.env.status c.env.proxy config = .ok c.locations := by
  induction run with
  | start => simp
  | call _ built _ ih => exact forall_mem_concat ih built

private theorem mem_cache_iff (run : Run config calls cache) (uri : Bytes) :
    uri ∈ cache ↔ ∃ c ∈ calls, c.request.uri = uri ∧ Matched c := by
  induction run with
  | start => simp
  | @call past cache after env locations req res _ built returned ih =>
      have split : ∀ c : Call, (∃ d ∈ past ++ [c], d.request.uri = uri ∧ Matched d) ↔
          (∃ d ∈ past, d.request.uri = uri ∧ Matched d) ∨ (c.request.uri = uri ∧ Matched c) := by
        intro c
        simp only [List.mem_append, List.mem_singleton, or_and_right, exists_or, exists_eq_left]
      rw [split, ← ih]
      obtain ⟨hit, rfl⟩ | ⟨-, unrouted, rfl⟩ | ⟨-, valid, key, handler, routed, -, -, rfl⟩ :=
        processReq_ok returned
      · -- answered from the cache, which has the URI already
        have stored := (cached_isSome_iff.mp (Option.isSome_iff_exists.mpr ⟨res, hit⟩)).2
        constructor
        · exact .inl
        · rintro (old | ⟨rfl, -⟩)
          · exact old
          · exact stored
      · constructor
        · exact .inl
        · rintro (old | ⟨-, valid, key, routed⟩)
          · exact old
          · rcases unrouted with invalid | none
            · exact absurd invalid valid
            · cases none.symm.trans routed
      · rw [Std.ExtTreeMap.mem_insert, Std.compare_eq_iff_eq]
        constructor
        · rintro (rfl | old)
          · exact .inr ⟨rfl, valid, key, routed⟩
          · exact .inl old
        · rintro (old | ⟨rfl, -⟩)
          · exact .inr old
          · exact .inl rfl

end Runs

/-- A valid request that is routed to a status location is answered by the status handler exactly if
its URI is `/status` or no valid request before had the same URI. -/
theorem answeredFresh_iff (config : NginxConfig) (calls : List Call) (cache : Cache)
    (run : Run config calls cache) (env : Env) (locations : Locations)
    (built : locationHandlers env.status env.proxy config = .ok locations) (req : Request)
    (valid : req.method ≠ .INVALID) (key : Bytes)
    (routed : route locations req.uri = .ok (some key)) (handler : RequestHandler)
    (found : locations[key]? = some handler)
    (named : handler.getHandlerName = lit "StatusHandler") :
    AnsweredFresh env locations req cache key ↔
      req.uri = lit "/status" ∨
        ∀ c ∈ calls, c.request.uri = req.uri → c.request.method = .INVALID := by
  obtain rfl := (status_of_name env).table built key handler found named
  have seen : (cached cache req.uri).isSome ↔
      ¬ (req.uri = lit "/status" ∨
        ∀ c ∈ calls, c.request.uri = req.uri → c.request.method = .INVALID) := by
    rw [cached_isSome_iff, mem_cache_iff run, not_or]
    refine and_congr_right (fun _ => ?_)
    simp only [not_forall, exists_prop]
    refine exists_congr (fun c => and_congr_right fun hc => and_congr_right fun huri => ?_)
    -- every earlier request for the URI was routed as this one is
    have same := route_congr (mem_locationHandlers_iff (built_of_mem run c hc) built) req.uri
    constructor
    · intro matched
      exact matched.1
    · intro valid'
      exact ⟨valid', key, by rw [huri, same, routed]⟩
  cases hit : cached cache req.uri with
  | some res =>
      refine iff_of_false ?_ (seen.mp (by rw [hit]; rfl))
      rintro ⟨uncached, -, -⟩
      simp only [processReq, hit] at uncached
      cases uncached
  | none =>
      have fresh : req.uri = lit "/status" ∨
          ∀ c ∈ calls, c.request.uri = req.uri → c.request.method = .INVALID := by
        by_contra old
        have := seen.mpr old
        rw [hit] at this
        cases this
      refine iff_of_true ?_ fresh
      obtain ⟨invoked, result⟩ := processReq_of_routed env.world valid hit routed found
      refine ⟨?_, invoked, result⟩
      simp only [processReq, hit, if_neg valid, routed, invoke, found]
      rfl

/-- The configuration `location "/status/" StatusHandler {}`. -/
def statusConfig : NginxConfig :=
  ⟨[.mk [lit "location", lit "\"/status/\"", lit "StatusHandler"] (some [])]⟩

def statusLocations (env : Env) : Locations :=
  (∅ : Locations).insertIfNew (lit "/status/") env.status

/-- The request `GET /status/ HTTP/1.0`. -/
def statusRequest : Request := ⟨.GET, lit "/status/", lit "HTTP/1.0", ∅, []⟩

theorem answeredFresh_first :
    route (statusLocations emptyEnv) (lit "/status/") = .ok (some (lit "/status/")) ∧
      AnsweredFresh emptyEnv (statusLocations emptyEnv) statusRequest ∅ (lit "/status/") := by
  have routed : route (statusLocations emptyEnv) statusRequest.uri = .ok (some (lit "/status/")) :=
    rfl
  exact ⟨routed, (answeredFresh_iff statusConfig [] ∅ .start emptyEnv (statusLocations emptyEnv) rfl
    statusRequest (by decide) (lit "/status/") routed emptyEnv.status rfl rfl).mpr (.inr (by simp))⟩

/-- The second request for the status page gets the first page from the cache. -/
theorem status_page_stored :
    ∃ calls cache, Run statusConfig calls cache ∧
      locationHandlers emptyEnv.status emptyEnv.proxy statusConfig =
        .ok (statusLocations emptyEnv) ∧
      route (statusLocations emptyEnv) statusRequest.uri = .ok (some (lit "/status/")) ∧
      (statusLocations emptyEnv)[lit "/status/"]? = some emptyEnv.status ∧
      (processReq (statusLocations emptyEnv) emptyEnv.world statusRequest cache).fromCache = true ∧
      (processReq (statusLocations emptyEnv) emptyEnv.world statusRequest cache).invoked = [] ∧
      ¬ AnsweredFresh emptyEnv (statusLocations emptyEnv) statusRequest cache (lit "/status/") := by
  have first : Run statusConfig ([] ++ [⟨emptyEnv, statusLocations emptyEnv, statusRequest, _, _⟩])
      ((∅ : Cache).insert (lit "/status/") (statusResponse [] [] emptyEnv.world)) :=
    .call .start rfl rfl
  have hit : cached ((∅ : Cache).insert (lit "/status/") (statusResponse [] [] emptyEnv.world))
      statusRequest.uri = some (statusResponse [] [] emptyEnv.world) := rfl
  have stored : (processReq (statusLocations emptyEnv) emptyEnv.world statusRequest
      ((∅ : Cache).insert (lit "/status/")
        (statusResponse [] [] emptyEnv.world))).fromCache = true := by
    simp only [processReq, hit]
  refine ⟨_, _, first, rfl, rfl, rfl, stored, by simp only [processReq, hit], ?_⟩
  rintro ⟨uncached, -, -⟩
  cases stored.symm.trans uncached

end Wnza.Server.Freshness
