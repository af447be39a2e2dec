/- GID: Wnza/Server/Counting
   generality: I
   source: src/session.cc, src/log_helper.cc, src/status_request_handler.cc
   digest: The number of requests on the status page, against the requests answered in a run. -/

import Wnza.Server.Service
import Wnza.Server.StatusPage

set_option autoImplicit false
set_option relaxedAutoImplicit false

namespace Wnza.Server.Counting

open Wnza.Http.Text
open Wnza.Http.Parser
open Wnza.Config.Tree
open Wnza.Handler.Basic
open Wnza.Handler.Echo
open Wnza.Handler.Status
open Wnza.Session.Deliveries
open Wnza.Session.Dispatch
open Wnza.Server.LogHelper
open Wnza.Server.Service
open Wnza.Server.StatusPage
open Wnza.Server.Table

/-- A server and its log: the requests that were logged on their arrival, those of them that
`process_req` has not answered yet, the calls that it has answered, the cache, all lines of the
log, and those of them that neither requests nor responses have to do with. -/
structure Serving where
  received : List Request
  pending : List Request
  calls : List Call
  cache : Cache
  lines : List Bytes
  others : List Bytes

/-- The lines that `process_req` logs for a request. -/
def metricsLines (stamp : Stamp) (peer : Option Endpoint) (req : Request) (p : Processed) :
    List Bytes :=
  p.metrics.map (fun m => LogRecord.line ⟨stamp, .metrics req m.code peer m.handlerName⟩)

/-- The states that a server with this configuration reaches from an empty log and an empty
cache.  Any request that has arrived may be answered next; a response may be sent and another
line may be logged at any time. -/
inductive Serves (config : NginxConfig) : Serving → Prop
  | start : Serves config ⟨[], [], [], ∅, [], []⟩
  | arrive {σ : Serving} (before : Serves config σ) {req : Request} (delivered : Delivered req)
      (stamp : Stamp) (peer : Endpoint) :
      Serves config { σ with
        received := σ.received ++ [req]
        pending := σ.pending ++ [req]
        lines := σ.lines ++ [LogRecord.line ⟨stamp, .requestInfo req peer⟩] }
  | answer {σ : Serving} (before : Serves config σ) {req : Request} {first rest : List Request}
      (next : σ.pending = first ++ req :: rest) {env : Env} {locations : Locations}
      (built : locationHandlers env.status env.proxy config = .ok locations) {res : Response}
      {after : Cache}
      (returned : (processReq locations env.world req σ.cache).result = .ok (res, after))
      (stamp : Stamp) (peer : Option Endpoint) :
      Serves config { σ with
        pending := first ++ rest
        calls := σ.calls ++
          [⟨env, locations, req, processReq locations env.world req σ.cache, res⟩]
        cache := after
        lines := σ.lines ++
          metricsLines stamp peer req (processReq locations env.world req σ.cache) }
  | sent {σ : Serving} (before : Serves config σ) (stamp : Stamp) :
      Serves config { σ with lines := σ.lines ++ [LogRecord.line ⟨stamp, .responseSent⟩] }
  | other {σ : Serving} (before : Serves config σ) {line : Bytes} (plain : LF ∉ line) :
      Serves config { σ with lines := σ.lines ++ [line], others := σ.others ++ [line] }

/-- A valid method and a location for the URI. -/
def Matched (c : Call) : Prop :=
  c.request.method ≠ .INVALID ∧ ∃ key, route c.locations c.request.uri = .ok (some key)

def isRepeat (seen : List Bytes) (uri : Bytes) : Bool := uri != lit "/status" && seen.contains uri

def repeatsAfter (seen : List Bytes) : List Bytes → Nat
  | [] => 0
  | uri :: rest => (isRepeat seen uri).toNat + repeatsAfter (seen ++ [uri]) rest

def repeats (uris : List Bytes) : Nat := repeatsAfter [] uris

instance (req : Request) : Decidable (Forging req) := inferInstanceAs (Decidable (_ ∧ _))

def countRows (lines : List Bytes) : Nat := lines.countP (fun l => (rowOf l).isSome)

/-- How many lines that are no metrics are taken for some: lines for requests that forge a row,
and other lines of the same look. -/
def forgedRows (σ : Serving) : Nat :=
  σ.received.countP (fun req => Forging req) + countRows σ.others

/-- The text of a log file. -/
def fileText (lines : List Bytes) : Bytes := lines.flatMap (fun l => l ++ [LF])

section Calls

variable {locations : Locations} {w : World} {req : Request} {cache after : Cache} {res : Response}

private theorem metrics_cases
    (returned : (processReq locations w req cache).result = .ok (res, after)) :
    (cached cache req.uri = some res ∧ after = cache ∧
        (processReq locations w req cache).metrics = []) ∨
    (cached cache req.uri = none ∧ (req.method = .INVALID ∨ route locations req.uri = .ok none) ∧
        after = cache ∧ (processReq locations w req cache).metrics = []) ∨
    (cached cache req.uri = none ∧ after = cache.insert req.uri res ∧
      ∃ (key : Bytes) (handler : RequestHandler), locations[key]? = some handler ∧
        (processReq locations w req cache).metrics =
          [⟨res.code, req.uri, handler.getHandlerName⟩]) := by
  obtain ⟨hit, rfl⟩ | ⟨fresh, unrouted, rfl⟩ |
    ⟨fresh, valid, key, handler, routed, found, answered, rfl⟩ := processReq_ok returned
  · exact .inl ⟨hit, rfl, by simp only [processReq, hit]⟩
  · exact .inr
      (.inl ⟨fresh, unrouted, rfl, by rw [processReq_of_unrouted w fresh unrouted, refuse]⟩)
  · refine .inr (.inr ⟨fresh, rfl, key, handler, found, ?_⟩)
    simp only [processReq, fresh, if_neg valid, routed, invoke, found, answered]

theorem cached_isSome_iff {uri : Bytes} :
    (cached cache uri).isSome ↔ uri ≠ lit "/status" ∧ uri ∈ cache := by
  rw [cached, Std.ExtTreeMap.mem_iff_isSome_getElem?]
  split_ifs with hstatus
  · simp [hstatus]
  · simp [hstatus]

private theorem repeatsAfter_concat (seen uris : List Bytes) (uri : Bytes) :
    repeatsAfter seen (uris ++ [uri]) =
      repeatsAfter seen uris + (isRepeat (seen ++ uris) uri).toNat := by
  induction uris generalizing seen with
  | nil => simp [repeatsAfter]
  | cons first uris ih =>
      rw [List.cons_append, repeatsAfter, repeatsAfter, ih, List.append_assoc,
        List.singleton_append]
      omega

end Calls

section Runs

variable {config : NginxConfig} {calls : List Call} {cache : Cache}

def metricsCount (calls : List Call) : Nat :=
  (calls.map (fun c => c.processed.metrics.length)).sum

private theorem metricsCount_add_repeats (run : Run config calls cache)
    (matched : ∀ c ∈ calls, Matched c) :
    (∀ uri, uri ∈ cache ↔ uri ∈ calls.map (fun c => c.request.uri)) ∧
      metricsCount calls + repeats (calls.map (fun c => c.request.uri)) = calls.length := by
  induction run with
  | start => simp [metricsCount, repeats, repeatsAfter]
  | @call past cache after env locations req res _ built returned ih =>
      obtain ⟨stored, count⟩ := ih (fun c hc => matched c (List.mem_append_left _ hc))
      obtain ⟨valid, key, routed⟩ := matched _ (List.mem_append_right _ List.mem_cons_self)
      have again : isRepeat (past.map (fun c => c.request.uri)) req.uri =
          (cached cache req.uri).isSome := by
        rw [Bool.eq_iff_iff, cached_isSome_iff, stored, isRepeat]
        simp only [Bool.and_eq_true, bne_iff_ne, List.contains_iff_mem]
      simp only [metricsCount, repeats, List.map_append, List.map_singleton, List.sum_append,
        List.sum_singleton, repeatsAfter_concat, List.nil_append, again, List.length_append,
        List.length_singleton, List.mem_append, List.mem_singleton] at count ⊢
      obtain ⟨hit, rfl, none⟩ | ⟨-, unrouted, -⟩ | ⟨fresh, rfl, key, handler, -, one⟩ :=
        metrics_cases returned
      · -- answered from the cache: no metrics, and the URI is a repeated one
        have known : req.uri ∈ past.map (fun c => c.request.uri) :=
          (stored req.uri).mp (cached_isSome_iff.mp (by rw [hit]; rfl)).2
        refine ⟨fun uri => ?_, ?_⟩
        · rw [stored]
          constructor
          · exact .inl
          · rintro (old | rfl)
            · exact old
            · exact known
        · rw [none, hit]
          simp only [Option.isSome_some, Bool.toNat_true, List.length_nil]
          omega
      · rcases unrouted with invalid | unrouted
        · exact absurd invalid valid
        · cases routed.symm.trans unrouted
      · -- answered by a handler: one line of metrics, and the URI is a new one or `/status`
        refine ⟨fun uri => ?_, ?_⟩
        · rw [Std.ExtTreeMap.mem_insert, Std.compare_eq_iff_eq, stored, or_comm, eq_comm]
        · rw [one, fresh]
          simp only [Option.isSome_none, Bool.toNat_false, List.length_singleton]
          omega

end Runs

section Logs

variable {config : NginxConfig} {σ : Serving}

private theorem run_of_serves (serves : Serves config σ) : Run config σ.calls σ.cache := by
  induction serves with
  | start => exact .start
  | arrive _ _ _ _ ih => exact ih
  | answer _ _ built returned _ _ ih => exact .call ih built returned
  | sent _ _ ih => exact ih
  | other _ _ ih => exact ih

private theorem delivered_of_pending (serves : Serves config σ) :
    ∀ req ∈ σ.pending, Delivered req := by
  induction serves with
  | start => simp
  | arrive _ delivered _ _ ih => exact forall_mem_concat ih delivered
  | @answer σ _ req first rest next _ _ _ _ _ _ _ _ ih =>
      intro other hmem
      refine ih other ?_
      rw [next]
      rcases List.mem_append.mp hmem with old | old
      · exact List.mem_append_left _ old
      · exact List.mem_append_right _ (List.mem_cons_of_mem _ old)
  | sent _ _ ih => exact ih
  | other _ _ ih => exact ih

private theorem metricsLines_spec {env : Env} {locations : Locations} {req : Request}
    {cache after : Cache} {res : Response} (delivered : Delivered req)
    (built : locationHandlers env.status env.proxy config = .ok locations)
    (returned : (processReq locations env.world req cache).result = .ok (res, after))
    (stamp : Stamp) (peer : Option Endpoint) :
    (∀ l ∈ metricsLines stamp peer req (processReq locations env.world req cache), LF ∉ l) ∧
      countRows (metricsLines stamp peer req (processReq locations env.world req cache)) =
        (processReq locations env.world req cache).metrics.length := by
  obtain ⟨-, -, none⟩ | ⟨-, -, -, none⟩ | ⟨-, -, key, handler, found, one⟩ := metrics_cases returned
  · simp [metricsLines, none, countRows]
  · simp [metricsLines, none, countRows]
  · have known : handler.getHandlerName ∈ handlerNames :=
      (known_names env).table built key handler found
    have line := newline_notMem_line ⟨stamp, .metrics req res.code peer handler.getHandlerName⟩
      ⟨delivered, known⟩
    have row := rowOf_metrics delivered.plain stamp res.code peer handler.getHandlerName
    rw [metricsLines, one]
    constructor
    · intro l hl
      rw [List.map_singleton, List.mem_singleton] at hl
      rw [hl]
      exact line
    · simp [countRows, row]

private theorem newline_notMem_lines (serves : Serves config σ) : ∀ l ∈ σ.lines, LF ∉ l := by
  induction serves with
  | start => simp
  | arrive _ delivered stamp peer ih =>
      exact forall_mem_concat ih (newline_notMem_line ⟨stamp, .requestInfo _ peer⟩ delivered)
  | @answer σ before req first rest next env locations built res after returned stamp peer ih =>
      have delivered := delivered_of_pending before req (by rw [next]; simp)
      intro l hl
      rcases List.mem_append.mp hl with old | new
      · exact ih l old
      · exact (metricsLines_spec delivered built returned stamp peer).1 l new
  | sent _ stamp ih =>
      exact forall_mem_concat ih (newline_notMem_line ⟨stamp, .responseSent⟩ trivial)
  | other _ plain ih => exact forall_mem_concat ih plain

private theorem countRows_lines (serves : Serves config σ) :
    countRows σ.lines = metricsCount σ.calls + forgedRows σ := by
  induction serves with
  | start => simp [countRows, metricsCount, forgedRows]
  | @arrive σ _ req delivered stamp peer ih =>
      have row := rowOf_requestInfo delivered.plain stamp peer
      simp only [countRows, forgedRows, List.countP_append, List.countP_singleton, row,
        decide_eq_true_eq] at ih ⊢
      omega
  | @answer σ before req first rest next env locations built res after returned stamp peer ih =>
      have delivered := delivered_of_pending before req (by rw [next]; simp)
      have rows := (metricsLines_spec delivered built returned stamp peer).2
      simp only [countRows, forgedRows, metricsCount, List.countP_append, List.map_append,
        List.map_singleton, List.sum_append, List.sum_singleton] at ih rows ⊢
      omega
  | @sent σ _ stamp ih =>
      simp only [countRows, forgedRows, List.countP_append, List.countP_singleton,
        rowOf_responseSent] at ih ⊢
      simpa using ih
  | @other σ _ line _ ih =>
      simp only [countRows, forgedRows, List.countP_append] at ih ⊢
      omega

private theorem numRequests_eq {chunks : List (List Bytes)} (plain : ∀ l ∈ chunks.flatten, LF ∉ l)
    (r : Records) :
    ((chunks.map fileText).foldl Records.readFile r).numRequests =
      r.numRequests + countRows chunks.flatten := by
  induction chunks generalizing r with
  | nil => simp [countRows]
  | cons lines chunks ih =>
      rw [List.flatten_cons] at plain
      have here : ∀ l ∈ lines, LF ∉ l := fun l hl => plain l (List.mem_append_left _ hl)
      have number := (foldl_readLine lines r).2
      rw [List.map_cons, List.foldl_cons, fileText, readFile_flatMap here,
        ih (fun l hl => plain l (List.mem_append_right _ hl)), number,
        List.length_filterMap_eq_countP, List.flatten_cons]
      simp only [countRows, List.countP_append]
      omega

private theorem numRequests_add_repeats (serves : Serves config σ)
    (matched : ∀ c ∈ σ.calls, Matched c) {chunks : List (List Bytes)}
    (files : chunks.flatten = σ.lines) :
    (readRecords [] (chunks.map fileText)).numRequests +
        repeats (σ.calls.map (fun c => c.request.uri)) =
      σ.calls.length + forgedRows σ := by
  have plain : ∀ l ∈ chunks.flatten, LF ∉ l := by
    rw [files]
    exact newline_notMem_lines serves
  have number : (readRecords [] (chunks.map fileText)).numRequests = countRows σ.lines := by
    rw [readRecords, numRequests_eq plain, files, Nat.zero_add]
  have rows := countRows_lines serves
  have answered := (metricsCount_add_repeats (run_of_serves serves) matched).2
  omega

end Logs

/-- When all requests match a location, the status page shows the number of answered requests
exactly if as many of them repeat an earlier URI as there are forged rows. -/
theorem total_requests_iff (config : NginxConfig) (σ : Serving) (serves : Serves config σ)
    (matched : ∀ c ∈ σ.calls, Matched c) (chunks : List (List Bytes))
    (files : chunks.flatten = σ.lines) :
    (readRecords [] (chunks.map fileText)).numRequests = σ.calls.length ↔
      repeats (σ.calls.map (fun c => c.request.uri)) = forgedRows σ := by
  have total := numRequests_add_repeats serves matched files
  constructor
  · intro shown
    omega
  · intro repeated
    omega

def emptyEnv : Env := ⟨⟨fun _ => none, []⟩, fun _ _ => none, 0, [], []⟩

private theorem returned_plainRequest (cache : Cache) : ∃ res after,
    (processReq echoLocations emptyEnv.world plainRequest cache).result = .ok (res, after) := by
  cases hit : cached cache plainRequest.uri with
  | some res => exact ⟨res, cache, by simp only [processReq, hit]⟩
  | none =>
      have answered := (@processReq_of_routed echoLocations plainRequest cache (lit "/echo/")
        echoRequestHandler emptyEnv.world (by decide) hit rfl rfl).2
      exact ⟨_, _, answered⟩

private theorem not_forging_plainRequest : ¬ Forging plainRequest := by
  rintro ⟨⟨h, hmem, -⟩, -⟩
  have none : plainRequest.headers.toList = [] := rfl
  rw [none] at hmem
  cases hmem

private theorem serves_plainRequest {σ : Serving} (serves : Serves echoConfig σ)
    (idle : σ.pending = []) (matched : ∀ c ∈ σ.calls, Matched c) :
    ∃ τ, Serves echoConfig τ ∧ τ.pending = [] ∧ (∀ c ∈ τ.calls, Matched c) ∧
      τ.calls.map (fun c => c.request.uri) =
        σ.calls.map (fun c => c.request.uri) ++ [lit "/echo/"] ∧
      forgedRows τ = forgedRows σ := by
  obtain ⟨res, after, returned⟩ := returned_plainRequest σ.cache
  have built : locationHandlers emptyEnv.status emptyEnv.proxy echoConfig = .ok echoLocations := rfl
  have arrived := serves.arrive delivered_plainRequest exampleStamp ⟨127, 0, 0, 1, 4000⟩
  have valid : plainRequest.method ≠ .INVALID := by decide
  have next : σ.pending ++ [plainRequest] = [] ++ plainRequest :: [] := by rw [idle]
  have answered := arrived.answer next built returned exampleStamp none
  refine ⟨_, answered, rfl, ?_, ?_, ?_⟩
  · exact forall_mem_concat matched ⟨valid, _, rfl⟩
  · simp only [List.map_append]
    rfl
  · simp [forgedRows, not_forging_plainRequest]

theorem total_requests_first :
    ∃ σ, Serves echoConfig σ ∧ σ.calls.length = 1 ∧
      (readRecords [] ([σ.lines].map fileText)).numRequests = σ.calls.length := by
  obtain ⟨σ, serves, -, matched, uris, forged⟩ :=
    serves_plainRequest .start rfl (List.forall_mem_nil _)
  have length := congrArg List.length uris
  have unrepeated : repeats (σ.calls.map (fun c => c.request.uri)) = forgedRows σ := by
    rw [uris, forged]
    decide
  refine ⟨σ, serves, by simpa using length, ?_⟩
  exact (total_requests_iff echoConfig σ serves matched [σ.lines] (by simp)).mpr unrepeated

/-- The second answer comes from the cache and is not counted. -/
theorem total_requests_repeated :
    ∃ σ, Serves echoConfig σ ∧ (∀ c ∈ σ.calls, Matched c) ∧ σ.calls.length = 2 ∧
      (readRecords [] ([σ.lines].map fileText)).numRequests = 1 := by
  obtain ⟨σ, serves, idle, matched, uris, forged⟩ :=
    serves_plainRequest .start rfl (List.forall_mem_nil _)
  obtain ⟨τ, serves', -, matched', uris', forged'⟩ := serves_plainRequest serves idle matched
  rw [uris] at uris'
  rw [forged] at forged'
  have length := congrArg List.length uris'
  have lines : [τ.lines].flatten = τ.lines := by simp
  have total := numRequests_add_repeats serves' matched' lines
  have repeated : repeats (τ.calls.map (fun c => c.request.uri)) = 1 := by
    rw [uris']
    decide
  have none : forgedRows τ = 0 := forged'
  refine ⟨τ, serves', matched', by simpa using length, ?_⟩
  simp only [List.map_nil, List.nil_append, List.length_map, List.length_append,
    List.length_singleton] at length
  omega

end Wnza.Server.Counting
