/- GID: Wnza/Server/Service
   generality: I
   source: src/server.cc, src/session.cc (process_req)
   digest: The handlers in the table of a configuration, and runs of requests served from it. -/

import Wnza.Handler.ProxyReading
import Wnza.Handler.Status
import Wnza.Server.Table

set_option autoImplicit false
set_option relaxedAutoImplicit false

namespace Wnza.Server.Service

open Wnza.Http.Text
open Wnza.Http.Parser
open Wnza.Config.Tree
open Wnza.Handler.Basic
open Wnza.Handler.Echo
open Wnza.Handler.Static
open Wnza.Handler.Status
open Wnza.Handler.ProxyReading (Network)
open Wnza.Handler.ProxyTarget
open Wnza.Session.Dispatch
open Wnza.Server.Table

/-- What the handlers find outside of the server during a request: the files and the date, the
other hosts, the name of this host and the log files.  A chain of redirections that is longer
than the number of rounds has not returned. -/
structure Env where
  world : World
  net : Network
  rounds : Nat
  hostName : Bytes
  logFiles : List Bytes

def Env.status (env : Env) : RequestHandler := statusRequestHandler env.hostName env.logFiles

def Env.proxy (env : Env) (h : ReverseProxyRequestHandler) : RequestHandler where
  handleRequest w req :=
    (Wnza.Handler.ProxyReading.handleRequest env.net h w env.rounds req).getD
      (.error .undefinedBehaviour)
  getHandlerName := lit "ProxyHandler"

/-- A property of handlers holds of the objects of all classes. -/
structure OfClasses (status : RequestHandler) (proxy : ReverseProxyRequestHandler → RequestHandler)
    (P : RequestHandler → Prop) : Prop where
  echo : P echoRequestHandler
  health : P healthRequestHandler
  notFound : P notFoundRequestHandler
  static : ∀ h : StaticRequestHandler,
    P ⟨fun w req => .ok (h.handleRequest w req), lit "StaticHandler"⟩
  status : P status
  proxied : ∀ h, P (proxy h)

section Table

variable {status : RequestHandler} {proxy : ReverseProxyRequestHandler → RequestHandler}
  {P : RequestHandler → Prop}

private theorem OfClasses.static_init (h : OfClasses status proxy P) {uri : Bytes}
    {block : NginxConfig} {handler : RequestHandler}
    (made : StaticRequestHandler.init uri block = .ok handler) :
    P handler := by
  unfold StaticRequestHandler.init at made
  split at made
  · cases made
  · obtain rfl := Except.ok.inj made
    exact h.notFound
  · split at made
    · cases made
    · obtain rfl := Except.ok.inj made
      exact h.static _

private theorem OfClasses.proxy_init (h : OfClasses status proxy P) {uri : Bytes}
    {block : NginxConfig} {handler : RequestHandler}
    (made : ReverseProxyRequestHandler.init proxy uri block = .ok handler) : P handler := by
  unfold ReverseProxyRequestHandler.init at made
  cases hvalue : block.getValueFromStatement (lit "dest") with
  | error e =>
      rw [hvalue] at made
      cases made
  | ok value =>
      rw [hvalue] at made
      by_cases given : value ≠ [] ∧ uri ≠ []
      · cases hmake : ReverseProxyRequestHandler.make block uri with
        | error e => simp [given, hmake, Bind.bind, Except.bind] at made
        | ok p =>
            simp only [Bind.bind, Except.bind, if_pos given, hmake] at made
            obtain rfl := Except.ok.inj made
            exact h.proxied p
      · simp only [Bind.bind, Except.bind, if_neg given] at made
        obtain rfl := Except.ok.inj made
        exact h.notFound

private theorem OfClasses.init (h : OfClasses status proxy P) {name uri : Bytes}
    {block : NginxConfig} {init : Init} {handler : RequestHandler}
    (known : initOf status proxy name = some init) (made : init uri block = .ok handler) :
    P handler := by
  unfold initOf at known
  split_ifs at known
  · obtain rfl := Option.some.inj known
    obtain rfl := Except.ok.inj made
    exact h.echo
  · obtain rfl := Option.some.inj known
    exact h.static_init made
  · obtain rfl := Option.some.inj known
    obtain rfl := Except.ok.inj made
    exact h.status
  · obtain rfl := Option.some.inj known
    obtain rfl := Except.ok.inj made
    exact h.notFound
  · obtain rfl := Option.some.inj known
    exact h.proxy_init made
  · obtain rfl := Option.some.inj known
    obtain rfl := Except.ok.inj made
    exact h.health

private theorem OfClasses.addLocations (h : OfClasses status proxy P)
    {results : List LocationParseResult} {locations table : Locations}
    (before : ∀ (key : Bytes) handler, locations[key]? = some handler → P handler)
    (built : addLocations status proxy results locations = .ok table) :
    ∀ (key : Bytes) handler, table[key]? = some handler → P handler := by
  induction results generalizing locations with
  | nil =>
      obtain rfl := Except.ok.inj built
      exact before
  | cons res rest ih =>
      rw [Table.addLocations] at built
      cases hinit : initOf status proxy res.handlerName with
      | none =>
          rw [hinit] at built
          exact ih before built
      | some init =>
          simp only [hinit] at built
          cases hadd : addRequestHandler init res locations with
          | error e => simp [hadd] at built
          | ok more =>
              obtain ⟨block, made, -, hmade, rfl⟩ := addRequestHandler_ok_iff.mp hadd
              rw [hadd] at built
              refine ih (fun key handler entry => ?_) built
              rw [Std.ExtTreeMap.getElem?_insertIfNew] at entry
              split_ifs at entry
              · obtain rfl := Option.some.inj entry
                exact h.init hinit hmade
              · exact before key handler entry

theorem OfClasses.table (h : OfClasses status proxy P) {config : NginxConfig}
    {locations : Locations} (built : locationHandlers status proxy config = .ok locations) :
    ∀ (key : Bytes) handler, locations[key]? = some handler → P handler := by
  unfold locationHandlers at built
  split at built
  · cases built
  · exact h.addLocations (by simp) built

theorem known_names (env : Env) :
    OfClasses env.status env.proxy (fun handler => handler.getHandlerName ∈ handlerNames) := by
  have echo : lit "EchoHandler" ∈ handlerNames := by decide
  have health : lit "HealthHandler" ∈ handlerNames := by decide
  have notFound : lit "NotFoundHandler" ∈ handlerNames := by decide
  have static : lit "StaticHandler" ∈ handlerNames := by decide
  have status : lit "StatusHandler" ∈ handlerNames := by decide
  have proxied : lit "ProxyHandler" ∈ handlerNames := by decide
  exact ⟨echo, health, notFound, fun _ => static, status, fun _ => proxied⟩

end Table

/-- A request that was answered: what the handlers found, the table they are in, what
`process_req` did and what it answered. -/
structure Call where
  env : Env
  locations : Locations
  request : Request
  processed : Processed
  response : Response

/-- The requests answered so far by any sessions of a server with this configuration, and the
cache they leave.  The server starts with an empty cache. -/
inductive Run (config : NginxConfig) : List Call → Cache → Prop
  | start : Run config [] ∅
  | call {past : List Call} {cache after : Cache} {env : Env} {locations : Locations}
      {req : Request} {res : Response} (earlier : Run config past cache)
      (built : locationHandlers env.status env.proxy config = .ok locations)
      (returned : (processReq locations env.world req cache).result = .ok (res, after)) :
      Run config
        (past ++ [⟨env, locations, req, processReq locations env.world req cache, res⟩]) after

end Wnza.Server.Service
