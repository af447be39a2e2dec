/- GID: Wnza/Server/Uncached
   generality: I
   source: src/session.cc (process_req), src/static_request_handler.cc,
     src/health_request_handler.cc, src/not_found_request_handler.cc
   digest: On a server of files the cache shows in the date of the answers alone. -/

import Wnza.Server.Declarations
import Wnza.Server.Steps
import Wnza.Session.Transparency

set_option autoImplicit false
set_option relaxedAutoImplicit false

namespace Wnza.Server.Uncached

open Wnza.Foundation.FirstInsert
open Wnza.Http.Text
open Wnza.Http.Parser (Request)
open Wnza.Config.Tree
open Wnza.Handler.Basic
open Wnza.Handler.Basic.Response
open Wnza.Handler.Echo
open Wnza.Handler.Static
open Wnza.Handler.ProxyTarget
open Wnza.Session.Dispatch
open Wnza.Session.Transparency
open Wnza.Server.Steps
open Wnza.Server.Table
open Wnza.Server.Declarations

/-- Responses that differ in their date at most. -/
structure SameButDate (r r' : Response) : Prop where
  code : r.code = r'.code
  body : r.body = r'.body
  headers : r.headers.erase (lit "Date") = r'.headers.erase (lit "Date")

def ByUri (handler : RequestHandler) : Prop :=
  ∀ w w' req req', w.files = w'.files → req.uri = req'.uri → req.method ≠ .INVALID →
    req'.method ≠ .INVALID →
    ∃ res res', handler.handleRequest w req = .ok res ∧ handler.handleRequest w' req' = .ok res' ∧
      SameButDate res res'

section Handlers

variable {w w' : World} {req req' : Request} {r : Response}

private theorem SameButDate.refl (r : Response) : SameButDate r r := ⟨rfl, rfl, rfl⟩

private theorem sameButDate_servername (w w' : World) (r : Response) :
    SameButDate (makeDateServernameHeaders w r) (makeDateServernameHeaders w' r) := by
  refine ⟨rfl, rfl, ?_⟩
  apply Std.ExtTreeMap.ext_getElem?
  intro key
  simp only [makeDateServernameHeaders, addHeader, Std.ExtTreeMap.getElem?_erase,
    Std.ExtTreeMap.getElem?_insert]
  by_cases date : compare (lit "Date") key = .eq
  · simp only [if_pos date]
  · simp only [if_neg date]

private theorem make404Error_congr (files : w.files = w'.files) :
    make404Error w r = make404Error w' r := by
  simp only [make404Error, notFoundPage, files]

private theorem byUri_notFound : ByUri notFoundRequestHandler := by
  intro w w' req req' files _ _ _
  refine ⟨_, _, rfl, rfl, ?_⟩
  rw [make404Error_congr files]
  exact .refl _

private theorem byUri_health : ByUri healthRequestHandler := by
  intro w w' req req' _ _ valid valid'
  refine ⟨_, _, rfl, rfl, ?_⟩
  simp only [healthResponse, if_pos valid, if_pos valid']
  exact sameButDate_servername w w' _

private theorem byUri_static (h : StaticRequestHandler) (name : Bytes) :
    ByUri ⟨fun w req => .ok (h.handleRequest w req), name⟩ := by
  intro w w' req req' files uri _ _
  refine ⟨_, _, rfl, rfl, ?_⟩
  simp only [StaticRequestHandler.handleRequest, StaticRequestHandler.fileToBody, uri, files,
    make404Error_congr files]
  by_cases named : h.getFileName req'.uri = []
  · simp only [if_pos named]
    exact .refl _
  · simp only [if_neg named]
    cases w'.files (h.root ++ h.getFileName req'.uri) with
    | none => exact .refl _
    | some body => exact sameButDate_servername w w' _

end Handlers

def fileHandlerNames : List Bytes :=
  [lit "StaticHandler", lit "NotFoundHandler", lit "HealthHandler"]

/-- A configuration whose locations serve files and fixed pages. -/
def ServesFiles (config : NginxConfig) : Prop :=
  ∀ results, config.getLocationResult = .ok results →
    ∀ res ∈ results, res.handlerName ∈ fileHandlerNames

/-- The files stay as they are while requests are processed. -/
def Unchanging (files : Bytes → Option Bytes) (_ : ServerState) : Event → Prop
  | .work _ w => w.files = files
  | _ => True

def Plainly (locations : Locations) (files : Bytes → Option Bytes) (req : Request)
    (res : Response) : Prop :=
  ∀ w, w.files = files → ∃ res' cache,
    (processReq locations w req ∅).result = .ok (res', cache) ∧ SameButDate res res'

def AnsweredPlainly (locations : Locations) (files : Bytes → Option Bytes) (a : Answer) : Prop :=
  a.delivery.request.method ≠ .INVALID → ∃ res cache, a.processed.result = .ok (res, cache) ∧
    Plainly locations files a.delivery.request res

/-- All stored and given answers are those of a server without a cache. -/
structure Invisible (locations : Locations) (files : Bytes → Option Bytes) (σ : ServerState) :
    Prop where
  stored : ∀ req, req.method ≠ .INVALID → ∀ res, σ.cache[req.uri]? = some res →
    Plainly locations files req res
  given : ∀ c ∈ σ.clients, ∀ a ∈ c.answers, AnsweredPlainly locations files a

section Table

variable {status : RequestHandler} {proxy : ReverseProxyRequestHandler → RequestHandler}
  {config : NginxConfig} {locations : Locations} {files : Bytes → Option Bytes}

private theorem byUri_init {name uri : Bytes} {block : NginxConfig} {init : Init}
    {handler : RequestHandler} (known : name ∈ fileHandlerNames)
    (hinit : initOf status proxy name = some init) (made : init uri block = .ok handler) :
    ByUri handler := by
  simp only [fileHandlerNames, List.mem_cons, List.not_mem_nil, or_false] at known
  obtain rfl | rfl | rfl := known
  · obtain rfl := Option.some.inj hinit
    unfold StaticRequestHandler.init at made
    split at made
    · cases made
    · obtain rfl := Except.ok.inj made
      exact byUri_notFound
    · split at made
      · cases made
      · obtain rfl := Except.ok.inj made
        exact byUri_static _ _
  · obtain rfl := Option.some.inj hinit
    obtain rfl := Except.ok.inj made
    exact byUri_notFound
  · obtain rfl := Option.some.inj hinit
    obtain rfl := Except.ok.inj made
    exact byUri_health

private theorem byUri_table (serves : ServesFiles config)
    (built : locationHandlers status proxy config = .ok locations) {path : Bytes}
    {handler : RequestHandler} (found : locations[path]? = some handler) : ByUri handler := by
  rw [getElem?_table built, firstValue, Option.map_eq_some_iff] at found
  obtain ⟨⟨uri, handler⟩, declared, rfl⟩ := found
  have member := List.mem_of_find?_eq_some declared
  rw [declarations] at member
  cases hresults : config.getLocationResult with
  | error e => simp [hresults] at member
  | ok results =>
      rw [hresults] at member
      obtain ⟨res, hres, made⟩ := List.mem_filterMap.mp member
      simp only [declaration, Option.bind_eq_some_iff, Option.map_eq_some_iff] at made
      obtain ⟨init, hinit, block, -, h, hmade, same⟩ := made
      obtain ⟨-, rfl⟩ := Prod.mk.inj same
      cases hinit' : init res.uri block with
      | error e => simp [hinit', Except.toOption] at hmade
      | ok h' =>
          obtain rfl : h' = h := by simpa [hinit', Except.toOption] using hmade
          exact byUri_init (serves results hresults res hres) hinit hinit'

end Table

section Runs

variable {locations : Locations} {files : Bytes → Option Bytes} {w : World} {req : Request}
  {cache after : Cache} {res : Response} {σ τ : ServerState} {e : Event}

private theorem cached_empty (uri : Bytes) : cached ∅ uri = none := by
  unfold cached
  split_ifs
  · rfl
  · rfl

private theorem plainly_routed (byUri : ∀ (path : Bytes) handler, locations[path]? = some handler →
      ByUri handler) {path : Bytes} {handler : RequestHandler} (world : w.files = files)
    (valid : req.method ≠ .INVALID) (routed : route locations req.uri = .ok (some path))
    (found : locations[path]? = some handler) (answered : handler.handleRequest w req = .ok res)
    {req' : Request} (same : req'.uri = req.uri) (valid' : req'.method ≠ .INVALID) :
    Plainly locations files req' res := by
  intro w' world'
  obtain ⟨r, r', first, again, close⟩ := byUri path handler found w w' req req'
    (world.trans world'.symm) same.symm valid valid'
  obtain rfl := Except.ok.inj (answered.symm.trans first)
  have routed' : route locations req'.uri = .ok (some path) := by
    rw [same]
    exact routed
  have plain := (processReq_of_routed w' valid' (cached_empty _) routed' found).2
  rw [again] at plain
  exact ⟨r', _, plain, close⟩

private theorem plainly_unrouted (unrouted : route locations req.uri = .ok none) :
    Plainly locations files req empty.make400Error := by
  intro w' _
  have plain := processReq_of_unrouted w' (cached_empty req.uri) (.inr unrouted)
  refine ⟨empty.make400Error, ∅, ?_, .refl _⟩
  rw [plain]
  rfl

private theorem plainly_call (byUri : ∀ (path : Bytes) handler, locations[path]? = some handler →
      ByUri handler) (world : w.files = files)
    (stored : ∀ req, req.method ≠ .INVALID → ∀ r, cache[req.uri]? = some r →
      Plainly locations files req r)
    (served : (processReq locations w req cache).result = .ok (res, after)) :
    (req.method ≠ .INVALID → Plainly locations files req res) ∧
      ∀ req', req'.method ≠ .INVALID → ∀ r, after[req'.uri]? = some r →
        Plainly locations files req' r := by
  obtain ⟨hit, rfl⟩ | ⟨fresh, unrouted, rfl⟩ |
    ⟨fresh, valid, path, handler, routed, found, answered, rfl⟩ := processReq_ok served
  · refine ⟨fun valid => stored req valid res ?_, stored⟩
    rw [cached] at hit
    split_ifs at hit
    exact hit
  · refine ⟨fun valid => ?_, stored⟩
    rw [processReq_of_unrouted w fresh unrouted, refuse, Except.ok.injEq, Prod.mk.injEq] at served
    rw [← served.1]
    exact plainly_unrouted (unrouted.resolve_left valid)
  · have plainly : ∀ req', req'.uri = req.uri → req'.method ≠ .INVALID →
        Plainly locations files req' res :=
      fun req' => plainly_routed byUri world valid routed found answered
    refine ⟨plainly req rfl, ?_⟩
    intro req' valid' r entry
    by_cases same : req.uri = req'.uri
    · rw [← same, Std.ExtTreeMap.getElem?_insert_self] at entry
      obtain rfl := Option.some.inj entry
      exact plainly req' same.symm valid'
    · rw [getElem?_of_served served same] at entry
      exact stored req' valid' r entry

private theorem Invisible.step (byUri : ∀ (path : Bytes) handler, locations[path]? = some handler →
      ByUri handler) (h : Invisible locations files σ) (unchanging : Unchanging files σ e)
    (next : Step locations σ e τ) : Invisible locations files τ := by
  cases next with
  | accept => exact ⟨h.stored, forall_mem_concat h.given (by simp [Client.connected])⟩
  | @read i data c out reports t client =>
      refine ⟨h.stored, fun x hx => ?_⟩
      rcases List.mem_or_eq_of_mem_set hx with hx | rfl
      · exact h.given x hx
      · exact h.given c (List.mem_of_getElem? client)
  | @work i w c d rest res cache client pending served =>
      obtain ⟨plainly, stored⟩ := plainly_call byUri unchanging h.stored served
      refine ⟨stored, fun x hx => ?_⟩
      rcases List.mem_or_eq_of_mem_set hx with hx | rfl
      · exact h.given x hx
      · exact forall_mem_concat (h.given c (List.mem_of_getElem? client))
          (fun valid => ⟨res, cache, served, plainly valid⟩)

private theorem invisible (byUri : ∀ (path : Bytes) handler, locations[path]? = some handler →
      ByUri handler) (run : Reaches locations (Unchanging files) σ) :
    Invisible locations files σ := by
  induction run with
  | start => exact ⟨by simp [ServerState.started], by simp [ServerState.started]⟩
  | step _ meets next ih => exact ih.step byUri meets next

end Runs

/-- On a server whose locations serve files and fixed pages, as long as the files stay as they are:
in every run, whatever the sessions ask for and in whatever order they work, every valid request is
answered as by a server without a cache, but for the date. -/
theorem cache_invisible (status : RequestHandler)
    (proxy : ReverseProxyRequestHandler → RequestHandler) (config : NginxConfig)
    (locations : Locations) (built : locationHandlers status proxy config = .ok locations)
    (serves : ServesFiles config) (files : Bytes → Option Bytes) (σ : ServerState)
    (run : Reaches locations (Unchanging files) σ) (c : Client) (connected : c ∈ σ.clients)
    (a : Answer) (given : a ∈ c.answers) (valid : a.delivery.request.method ≠ .INVALID) :
    ∃ res cache, a.processed.result = .ok (res, cache) ∧
      ∀ w, w.files = files → ∃ res' cache',
        (processReq locations w a.delivery.request ∅).result = .ok (res', cache') ∧
          SameButDate res res' :=
  (invisible (fun _ _ found => byUri_table serves built found) run).given c connected a given valid

/-- The configuration `location "/health/" HealthHandler {}`. -/
def healthConfig : NginxConfig :=
  ⟨[.mk [lit "location", lit "\"/health/\"", lit "HealthHandler"] (some [])]⟩

def healthLocations : Locations := (∅ : Locations).insert (lit "/health/") healthRequestHandler

/-- A second request gets the answer to the first one, with its date. -/
theorem cache_invisible_health :
    ∃ σ c a, Reaches healthLocations (Unchanging (fun _ => none)) σ ∧ c ∈ σ.clients ∧
      a ∈ c.answers ∧ a.processed.fromCache = true ∧
      ∃ res cache, a.processed.result = .ok (res, cache) ∧
        ∃ res' cache', (processReq healthLocations ⟨fun _ => none, lit "later"⟩
          a.delivery.request ∅).result = .ok (res', cache') ∧ SameButDate res res' := by
  have received : Session.Receive.ReceivedReporting .fresh (lit "GET /health/ HTTP/1.0\r\n\r\n")
      [⟨.good, ⟨.GET, lit "/health/", lit "HTTP/1.0", ∅, []⟩⟩]
      [⟨.good, ⟨.GET, lit "/health/", lit "HTTP/1.0", ∅, []⟩⟩] .fresh :=
    ⟨1, rfl, rfl⟩
  have built : locationHandlers notFoundRequestHandler (fun _ => notFoundRequestHandler)
      healthConfig = .ok healthLocations := rfl
  have serves : ServesFiles healthConfig := by
    intro results hresults res hres
    obtain rfl := Except.ok.inj hresults
    rw [List.mem_singleton.mp hres]
    simp [fileHandlerNames]
  have first : Reaches healthLocations (Unchanging (fun _ => none)) _ :=
    reaches_answer healthLocations _ ⟨fun _ => none, lit "today"⟩ (by decide) received rfl trivial
      trivial rfl
  have read := first.step (e := .read 0 (lit "GET /health/ HTTP/1.0\r\n\r\n")) trivial
    (.read rfl rfl (by decide) received)
  have work := read.step (e := .work 0 ⟨fun _ => none, lit "later"⟩) rfl (.work rfl rfl rfl)
  refine ⟨_, _, _, work, List.mem_cons_self, List.mem_cons_of_mem _ List.mem_cons_self, rfl, ?_⟩
  obtain ⟨res, cache, given, plain⟩ := cache_invisible notFoundRequestHandler
    (fun _ => notFoundRequestHandler) healthConfig healthLocations built serves (fun _ => none) _
    work _ List.mem_cons_self _ (List.mem_cons_of_mem _ List.mem_cons_self) (by decide)
  exact ⟨res, cache, given, plain ⟨fun _ => none, lit "later"⟩ rfl⟩

end Wnza.Server.Uncached
