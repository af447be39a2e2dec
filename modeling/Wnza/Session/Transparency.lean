/- GID: Wnza/Session/Transparency
   generality: I
   source: src/session.cc, src/server.cc, src/echo_request_handler.cc
   digest: What a history of requests leaves in the shared cache, and what later clients see of
     it. -/

import Wnza.Session.Dispatch

set_option autoImplicit false
set_option relaxedAutoImplicit false

namespace Wnza.Session.Transparency

open Wnza.Http.Text
open Wnza.Http.Parser
open Wnza.Handler.Basic
open Wnza.Handler.Basic.Response
open Wnza.Handler.Echo
open Wnza.Session.Dispatch

/-- The requests processed so far by any sessions, each with the world it was processed in,
and the cache they leave, which was empty before them. -/
inductive History (locations : Locations) : List (World × Request) → Cache → Prop
  | start : History locations [] ∅
  | serve {past : List (World × Request)} {cache cache' : Cache} {w : World} {req : Request}
      {res : Response} (before : History locations past cache)
      (served : (processReq locations w req cache).result = .ok (res, cache')) :
      History locations (past ++ [(w, req)]) cache'

def firstValid (past : List (World × Request)) (uri : Bytes) : Option (World × Request) :=
  past.find? (fun e => e.2.uri = uri ∧ e.2.method ≠ .INVALID)

def view (res : Response) : StatusCode × Bytes := (res.code, res.body)

def viewed (p : Processed) : Except Fault (StatusCode × Bytes) := p.result.map (fun r => view r.1)

def echoBody (req : Request) : Bytes :=
  match methodName req.method with
  | some name => echoText name req
  | none => []

/-- The handlers that read nothing but the request and `404page.html`. -/
def PlainHandler (handler : RequestHandler) : Prop :=
  handler = echoRequestHandler ∨ handler = healthRequestHandler ∨ handler = notFoundRequestHandler

section History

variable {locations : Locations} {past : List (World × Request)} {cache : Cache} {uri key : Bytes}
  {handler : RequestHandler}

private theorem firstValid_concat (e : World × Request) :
    firstValid (past ++ [e]) uri =
      (firstValid past uri).or
        (if e.2.uri = uri ∧ e.2.method ≠ .INVALID then some e else none) := by
  rw [firstValid, List.find?_append]
  congr 1
  simp only [List.find?_singleton, decide_eq_true_eq]

/-- The cache entry of a URI is the answer to the first valid request for it. -/
def Remembers (handler : RequestHandler) (entry : Option Response) :
    Option (World × Request) → Prop
  | none => entry = none
  | some e => ∃ res, handler.handleRequest e.1 e.2 = .ok res ∧ entry = some res

theorem cached_eq (hstatus : uri ≠ lit "/status") : cached cache uri = cache[uri]? := by
  rw [cached, if_neg hstatus]

theorem getElem?_of_served {cache' : Cache} {w : World} {req : Request} {res : Response}
    (served : (processReq locations w req cache).result = .ok (res, cache'))
    (hne : req.uri ≠ uri) : cache'[uri]? = cache[uri]? := by
  obtain ⟨-, rfl⟩ | ⟨-, -, rfl⟩ | ⟨-, -, key, handler, -, -, -, rfl⟩ := processReq_ok served
  · rfl
  · rfl
  · have other : compare req.uri uri ≠ .eq := fun h => hne (Std.LawfulEqCmp.eq_of_compare h)
    rw [Std.ExtTreeMap.getElem?_insert, if_neg other]

private theorem History.remembers (h : History locations past cache) (hstatus : uri ≠ lit "/status")
    (routed : route locations uri = .ok (some key)) (found : locations[key]? = some handler) :
    Remembers handler cache[uri]? (firstValid past uri) := by
  induction h with
  | start => simp [firstValid, Remembers]
  | @serve past cache cache' w req res before served ih =>
      rw [firstValid_concat]
      by_cases huri : req.uri = uri
      · subst huri
        obtain ⟨hcached, rfl⟩ | ⟨hcached, hrefused, rfl⟩ |
          ⟨hcached, valid, key', handler', hroute, hfound, hres, rfl⟩ := processReq_ok served
        · rw [cached_eq hstatus] at hcached
          cases hfirst : firstValid past req.uri with
          | none =>
              rw [hfirst, Remembers, hcached] at ih
              cases ih
          | some e =>
              rw [hfirst] at ih
              simpa using ih
        · have invalid : req.method = .INVALID := by
            rcases hrefused with hmethod | hroute
            · exact hmethod
            · rw [routed] at hroute
              cases hroute
          simpa [invalid] using ih
        · rw [cached_eq hstatus] at hcached
          obtain rfl : key' = key := by
            rw [routed] at hroute
            exact (Option.some.inj (Except.ok.inj hroute)).symm
          obtain rfl : handler' = handler := Option.some.inj (hfound.symm.trans found)
          cases hfirst : firstValid past req.uri with
          | none => simpa [Remembers, valid] using hres
          | some e =>
              rw [hfirst, hcached] at ih
              obtain ⟨r, -, hr⟩ := ih
              cases hr
      · rw [getElem?_of_served served huri]
        simpa [huri] using ih

end History

/-- After a history the request is answered as its handler answers it. -/
def Undisturbed (locations : Locations) (handler : RequestHandler) (w : World) (req : Request)
    (cache : Cache) : Prop :=
  viewed (processReq locations w req cache) = (handler.handleRequest w req).map view

/-- The first valid request for the URI would be echoed as the same text, if the location
echoes and is not the status page. -/
def SameEcho (handler : RequestHandler) (past : List (World × Request)) (req : Request) : Prop :=
  handler.getHandlerName = lit "EchoHandler" → req.uri ≠ lit "/status" →
    ∀ e, firstValid past req.uri = some e → echoBody e.2 = echoBody req

section Plain

variable {handler : RequestHandler} {w w' : World} {req req' : Request}

private theorem view_echoResponse (valid : req.method ≠ .INVALID) :
    view (echoResponse w req) = (.OK, echoBody req) := by
  obtain ⟨name, hname⟩ := exists_methodName valid
  simp only [view, echoResponse, echoBody, hname]
  rfl

private theorem view_healthResponse (valid : req.method ≠ .INVALID) :
    view (healthResponse w req) = (.OK, lit "OK") := by
  simp only [view, healthResponse, if_pos valid]
  rfl

private theorem plain_view_iff (plain : PlainHandler handler)
    (page : notFoundPage w = notFoundPage w') (valid : req.method ≠ .INVALID)
    (valid' : req'.method ≠ .INVALID) :
    (handler.handleRequest w req).map view = (handler.handleRequest w' req').map view ↔
      (handler.getHandlerName = lit "EchoHandler" → echoBody req = echoBody req') := by
  rcases plain with rfl | rfl | rfl
  · have echo : echoRequestHandler.getHandlerName = lit "EchoHandler" := rfl
    simp only [echoRequestHandler, Except.map, view_echoResponse valid, view_echoResponse valid']
    simp
  · have other : healthRequestHandler.getHandlerName ≠ lit "EchoHandler" := by decide
    simp only [other, false_imp_iff, iff_true]
    simp only [healthRequestHandler, Except.map, view_healthResponse valid,
      view_healthResponse valid']
  · have other : notFoundRequestHandler.getHandlerName ≠ lit "EchoHandler" := by decide
    simp only [other, false_imp_iff, iff_true]
    simp only [notFoundRequestHandler, Except.map, view, make404Error, page]

end Plain

section Clients

variable {locations : Locations} {past : List (World × Request)} {cache : Cache} {key : Bytes}
  {handler : RequestHandler} {w : World} {req : Request}

private theorem undisturbed_of_fresh (valid : req.method ≠ .INVALID)
    (routed : route locations req.uri = .ok (some key)) (found : locations[key]? = some handler)
    (fresh : cached cache req.uri = none) : Undisturbed locations handler w req cache := by
  obtain ⟨-, result⟩ := processReq_of_routed w valid fresh routed found
  rw [Undisturbed, viewed, result]
  cases handler.handleRequest w req <;> rfl

private theorem undisturbed_iff (history : History locations past cache)
    (valid : req.method ≠ .INVALID) (routed : route locations req.uri = .ok (some key))
    (found : locations[key]? = some handler) (plain : PlainHandler handler)
    (page : ∀ e ∈ past, notFoundPage e.1 = notFoundPage w) :
    Undisturbed locations handler w req cache ↔ SameEcho handler past req := by
  by_cases hstatus : req.uri = lit "/status"
  · have fresh : cached cache req.uri = none := by rw [cached, if_pos hstatus]
    exact iff_of_true (undisturbed_of_fresh valid routed found fresh)
      (fun _ hne => absurd hstatus hne)
  · have remembers := history.remembers hstatus routed found
    cases hfirst : firstValid past req.uri with
    | none =>
        rw [hfirst, Remembers] at remembers
        have fresh : cached cache req.uri = none := by rw [cached_eq hstatus, remembers]
        refine iff_of_true (undisturbed_of_fresh valid routed found fresh) ?_
        intro _ _ e he
        rw [hfirst] at he
        cases he
    | some e =>
        rw [hfirst] at remembers
        obtain ⟨res, hres, hentry⟩ := remembers
        obtain ⟨-, valid'⟩ : e.2.uri = req.uri ∧ e.2.method ≠ .INVALID := by
          simpa using List.find?_some hfirst
        have answered : viewed (processReq locations w req cache) =
            (handler.handleRequest e.1 e.2).map view := by
          simp only [viewed, processReq, cached_eq hstatus, hentry, hres, Except.map]
        have alike := plain_view_iff plain (page e (List.mem_of_find?_eq_some hfirst)) valid' valid
        rw [Undisturbed, answered, alike]
        constructor
        · intro same echo _ e' he'
          rw [hfirst] at he'
          obtain rfl := Option.some.inj he'
          exact same echo
        · intro same echo
          exact same echo hstatus e hfirst

end Clients

/-- Both histories leave the request the answer of its handler, in status code and body, exactly
if the first valid request for its URI in each of them is echoed alike. -/
theorem cache_transparent_iff (locations : Locations) (req : Request)
    (valid : req.method ≠ .INVALID) (key : Bytes) (handler : RequestHandler)
    (routed : route locations req.uri = .ok (some key)) (found : locations[key]? = some handler)
    (plain : PlainHandler handler) (past₁ past₂ : List (World × Request)) (cache₁ cache₂ : Cache)
    (history₁ : History locations past₁ cache₁) (history₂ : History locations past₂ cache₂)
    (w₁ w₂ : World) (page : Bytes)
    (unchanged : ∀ w ∈ w₁ :: w₂ :: (past₁ ++ past₂).map Prod.fst, notFoundPage w = page) :
    (Undisturbed locations handler w₁ req cache₁ ∧ Undisturbed locations handler w₂ req cache₂ ∧
        viewed (processReq locations w₁ req cache₁) =
          viewed (processReq locations w₂ req cache₂)) ↔
      SameEcho handler past₁ req ∧ SameEcho handler past₂ req := by
  have page₁ : notFoundPage w₁ = page := unchanged w₁ (by simp)
  have page₂ : notFoundPage w₂ = page := unchanged w₂ (by simp)
  have past : ∀ e ∈ past₁ ++ past₂, notFoundPage e.1 = page := by
    intro e he
    exact unchanged e.1 (List.mem_cons_of_mem _ (List.mem_cons_of_mem _
      (List.mem_map_of_mem he)))
  have iff₁ := undisturbed_iff (w := w₁) history₁ valid routed found plain
    (fun e he => (past e (by simp [he])).trans page₁.symm)
  have iff₂ := undisturbed_iff (w := w₂) history₂ valid routed found plain
    (fun e he => (past e (by simp [he])).trans page₂.symm)
  have alike : (handler.handleRequest w₁ req).map view = (handler.handleRequest w₂ req).map view :=
    (plain_view_iff plain (page₁.trans page₂.symm) valid valid).mpr (fun _ => rfl)
  rw [← iff₁, ← iff₂]
  constructor
  · rintro ⟨h₁, h₂, -⟩
    exact ⟨h₁, h₂⟩
  · rintro ⟨h₁, h₂⟩
    exact ⟨h₁, h₂, by rw [h₁, h₂, alike]⟩

theorem cache_transparent_repeated :
    ∃ cache, History echoLocations
        [(⟨fun _ => none, []⟩, ⟨.GET, lit "/echo/", lit "HTTP/1.1", ∅, []⟩)] cache ∧
      viewed (processReq echoLocations ⟨fun _ => none, []⟩
          ⟨.GET, lit "/echo/", lit "HTTP/1.1", ∅, []⟩ ∅) =
        viewed (processReq echoLocations ⟨fun _ => none, []⟩
          ⟨.GET, lit "/echo/", lit "HTTP/1.1", ∅, []⟩ cache) := by
  have history : History echoLocations
      ([] ++ [(⟨fun _ => none, []⟩, ⟨.GET, lit "/echo/", lit "HTTP/1.1", ∅, []⟩)]) _ :=
    .serve .start rfl
  refine ⟨_, history, ?_⟩
  have transparent := cache_transparent_iff echoLocations
    ⟨.GET, lit "/echo/", lit "HTTP/1.1", ∅, []⟩ (by decide) (lit "/echo/") echoRequestHandler
    rfl rfl (.inl rfl) [] _ ∅ _ .start history ⟨fun _ => none, []⟩ ⟨fun _ => none, []⟩ []
    (by simp [notFoundPage])
  refine (transparent.mpr ⟨?_, ?_⟩).2.2
  · intro _ _ e he
    cases he
  · intro _ _ e he
    obtain rfl := Option.some.inj he
    rfl

/-- The echo of one client's headers is served to another client. -/
theorem echo_of_another_client :
    ∃ cache, History echoLocations
        [(⟨fun _ => none, []⟩, ⟨.GET, lit "/echo/", lit "HTTP/1.1",
          (∅ : Headers).insert (lit "Cookie") (lit "secret"), []⟩)] cache ∧
      viewed (processReq echoLocations ⟨fun _ => none, []⟩
          ⟨.GET, lit "/echo/", lit "HTTP/1.1", ∅, []⟩ cache) =
        .ok (.OK, lit "GET /echo/ HTTP/1.1\r\nCookie: secret\r\n\r\n") ∧
      ¬ Undisturbed echoLocations echoRequestHandler ⟨fun _ => none, []⟩
          ⟨.GET, lit "/echo/", lit "HTTP/1.1", ∅, []⟩ cache := by
  have history : History echoLocations
      ([] ++ [(⟨fun _ => none, []⟩, ⟨.GET, lit "/echo/", lit "HTTP/1.1",
        (∅ : Headers).insert (lit "Cookie") (lit "secret"), []⟩)]) _ :=
    .serve .start rfl
  refine ⟨_, history, rfl, ?_⟩
  intro undisturbed
  have own : Except.ok (StatusCode.OK, lit "GET /echo/ HTTP/1.1\r\nCookie: secret\r\n\r\n") =
      (echoRequestHandler.handleRequest ⟨fun _ => none, []⟩
        ⟨.GET, lit "/echo/", lit "HTTP/1.1", ∅, []⟩).map view :=
    undisturbed
  revert own
  decide

end Wnza.Session.Transparency
