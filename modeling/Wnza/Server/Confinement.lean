/- GID: Wnza/Server/Confinement
   generality: I
   source: src/server.cc, src/static_request_handler.cc, src/reverse_proxy_request_handler.cc
   digest: The files that the answers of a server can depend on, over whole runs. -/

import Wnza.Server.Declarations
import Wnza.Server.Service

set_option autoImplicit false
set_option relaxedAutoImplicit false

namespace Wnza.Server.Confinement

open Wnza.Foundation.FirstInsert
open Wnza.Foundation.LexicalPath
open Wnza.Foundation.LexicalPath.Resolved
open Wnza.Http.Text
open Wnza.Http.Parser
open Wnza.Config.Tree
open Wnza.Handler.Basic
open Wnza.Handler.Basic.Response
open Wnza.Handler.Echo
open Wnza.Handler.Static
open Wnza.Handler.Status
open Wnza.Handler.ProxyTarget
open Wnza.Handler.ProxyReading (Network)
open Wnza.Session.Dispatch
open Wnza.Server.Table
open Wnza.Server.Declarations
open Wnza.Server.Service

/-- The two worlds have the same error page and the same date. -/
structure SamePage (w w' : World) : Prop where
  page : w.files (lit "404page.html") = w'.files (lit "404page.html")
  date : w.date = w'.date

section Handlers

variable {w w' : World}

private theorem SamePage.notFound (same : SamePage w w') : make404Error w = make404Error w' := by
  funext r
  simp only [make404Error, notFoundPage, same.page]

private theorem SamePage.dated (same : SamePage w w') :
    makeDateServernameHeaders w = makeDateServernameHeaders w' := by
  funext r
  simp only [makeDateServernameHeaders, same.date]

open Wnza.Handler.ProxyReading in
private theorem SamePage.readResponse (same : SamePage w w') (prefixUri : Bytes)
    (segments : List Bytes) :
    readResponse w prefixUri segments = readResponse w' prefixUri segments := by
  simp only [Wnza.Handler.ProxyReading.readResponse, readAnswer, throw400Error, same.notFound,
    same.dated]

open Wnza.Handler.ProxyReading in
private theorem SamePage.sendRequest (same : SamePage w w') (net : Network)
    (h : ReverseProxyRequestHandler) (n : Nat) :
    sendRequest net h w n = sendRequest net h w' n := by
  induction n with
  | zero => rfl
  | succ n ih =>
      funext req host
      simp only [sendRequest_eq, handleRedirect, ih, same.readResponse, throw400Error, same.dated]

open Wnza.Handler.ProxyReading in
private theorem SamePage.handleRequest (same : SamePage w w') (net : Network)
    (h : ReverseProxyRequestHandler) (n : Nat) (req : Request) :
    handleRequest net h w n req = handleRequest net h w' n req := by
  simp only [Wnza.Handler.ProxyReading.handleRequest, throw400Error, same.dated, same.notFound,
    same.sendRequest]

end Handlers

/-- A static location of the configuration: its handler, and its root without the quotes. -/
def Serves (config : NginxConfig) (h : StaticRequestHandler) (root : Bytes) : Prop :=
  ∃ results res block q q', config.getLocationResult = .ok results ∧ res ∈ results ∧
    res.handlerName = lit "StaticHandler" ∧ res.blockConfig = some block ∧
    block.getValueFromStatement (lit "root") = .ok (q :: root ++ [q']) ∧
    StaticRequestHandler.make block res.uri = .ok h

/-- The error page, and the files inside the roots of the static locations. -/
def Readable (config : NginxConfig) (path : Bytes) : Prop :=
  path = lit "404page.html" ∨
    ∃ h root, Serves config h root ∧ Within (resolved root) (resolved path)

/-- What follows a static location in the URI returns to its root wherever it climbs out. -/
def Confined (config : NginxConfig) (uri : Bytes) : Prop :=
  ∀ h root, Serves config h root → h.getFileName uri ≠ [] → Reenters root (h.getFileName uri)

/-- Two environments that differ at most in files that are neither readable nor log files. -/
structure Agree (config : NginxConfig) (env env' : Env) : Prop where
  net : env.net = env'.net
  rounds : env.rounds = env'.rounds
  hostName : env.hostName = env'.hostName
  logFiles : env.logFiles = env'.logFiles
  date : env.world.date = env'.world.date
  files : ∀ path, Readable config path → env.world.files path = env'.world.files path

section Table

variable {config : NginxConfig} {env env' : Env} {req : Request}

private theorem Agree.samePage (agree : Agree config env env') : SamePage env.world env'.world :=
  ⟨agree.files _ (.inl rfl), agree.date⟩

private theorem Agree.status (agree : Agree config env env') : env.status = env'.status := by
  rw [Env.status, Env.status, agree.hostName, agree.logFiles]

private theorem Agree.proxy (agree : Agree config env env') : env.proxy = env'.proxy := by
  funext h
  simp only [Env.proxy, agree.net, agree.rounds]

private theorem make_root {block : NginxConfig} {uri : Bytes} {h : StaticRequestHandler}
    {value : Bytes} (read : block.getValueFromStatement (lit "root") = .ok value)
    (given : value ≠ []) (made : StaticRequestHandler.make block uri = .ok h) :
    ∃ q root q', value = q :: root ++ [q'] ∧ ensureSlash root = .ok h.root := by
  rw [StaticRequestHandler.make, read] at made
  simp only at made
  cases hroot : ensureSlash (StaticRequestHandler.rootUri value) with
  | error e => simp [hroot] at made
  | ok slashed =>
      cases hprefix : ensureSlash uri with
      | error e => simp [hroot, hprefix] at made
      | ok start =>
          simp only [hroot, hprefix, Except.ok.injEq] at made
          subst made
          obtain ⟨q, tail, rfl⟩ := List.exists_cons_of_ne_nil given
          cases tail using List.reverseRecOn with
          | nil => simp [StaticRequestHandler.rootUri, ensureSlash] at hroot
          | append_singleton root q' _ =>
              have inner : StaticRequestHandler.rootUri (q :: (root ++ [q'])) = root := by
                simp [StaticRequestHandler.rootUri]
              rw [inner] at hroot
              exact ⟨q, root, q', rfl, hroot⟩

private theorem Serves.slashed {h : StaticRequestHandler} {root : Bytes}
    (serves : Serves config h root) :
    ensureSlash root = .ok h.root := by
  obtain ⟨results, res, block, q, q', -, -, -, -, value, made⟩ := serves
  obtain ⟨p, other, p', same, slashed⟩ := make_root value (by simp) made
  obtain ⟨-, inner⟩ := List.cons.inj same
  obtain ⟨rfl, -⟩ := List.append_inj' inner rfl
  exact slashed

private theorem opens_readable {h : StaticRequestHandler} {root path : Bytes}
    (serves : Serves config h root) (confined : Confined config req.uri)
    (opened : h.opens req.uri = some path) :
    Readable config path := by
  unfold StaticRequestHandler.opens at opened
  by_cases hname : h.getFileName req.uri = []
  · rw [if_pos hname] at opened
    cases opened
  · rw [if_neg hname] at opened
    obtain rfl := Option.some.inj opened
    refine .inr ⟨h, root, serves, ?_⟩
    rw [resolved_append serves.slashed, within_resolve_iff]
    exact confined h root serves hname

private theorem proxy_init_cases {proxy : ReverseProxyRequestHandler → RequestHandler} {uri : Bytes}
    {block : NginxConfig} {handler : RequestHandler}
    (made : ReverseProxyRequestHandler.init proxy uri block = .ok handler) :
    handler = notFoundRequestHandler ∨ ∃ h, handler = proxy h := by
  unfold ReverseProxyRequestHandler.init at made
  cases hvalue : block.getValueFromStatement (lit "dest") with
  | error e => simp [hvalue, Bind.bind, Except.bind] at made
  | ok value =>
      by_cases given : value ≠ [] ∧ uri ≠ []
      · cases hmake : ReverseProxyRequestHandler.make block uri with
        | error e => simp [hvalue, given, hmake, Bind.bind, Except.bind] at made
        | ok h =>
            simp only [hvalue, Bind.bind, Except.bind, if_pos given, hmake] at made
            exact .inr ⟨h, (Except.ok.inj made).symm⟩
      · simp only [hvalue, Bind.bind, Except.bind, if_neg given] at made
        exact .inl (Except.ok.inj made).symm

end Table

/-- A statement for a path that names the class of the status page. -/
def StatusAt (config : NginxConfig) (path : Bytes) : Prop :=
  ∃ results res, config.getLocationResult = .ok results ∧ res ∈ results ∧ res.uri = path ∧
    res.handlerName = lit "StatusHandler"

def SameOpened (config : NginxConfig) (uri : Bytes) (w w' : World) : Prop :=
  ∀ h root, Serves config h root → ∀ path, h.opens uri = some path → w.files path = w'.files path

section Worlds

variable {config : NginxConfig} {status : RequestHandler}
  {proxy : ReverseProxyRequestHandler → RequestHandler} {req : Request} {w w' : World}
  {results : List LocationParseResult} {res : LocationParseResult} {handler : RequestHandler}

private theorem static_congr {block : NginxConfig} (same : SamePage w w')
    (opened : SameOpened config req.uri w w') (read : config.getLocationResult = .ok results)
    (mem : res ∈ results) (name : res.handlerName = lit "StaticHandler")
    (child : res.blockConfig = some block)
    (made : StaticRequestHandler.init res.uri block = .ok handler) :
    handler.handleRequest w req = handler.handleRequest w' req := by
  unfold StaticRequestHandler.init at made
  cases hvalue : block.getValueFromStatement (lit "root") with
  | error e => simp [hvalue] at made
  | ok value =>
      cases value with
      | nil =>
          simp only [hvalue] at made
          obtain rfl := Except.ok.inj made
          simp only [notFoundRequestHandler, same.notFound]
      | cons b value =>
          simp only [hvalue] at made
          cases hmake : StaticRequestHandler.make block res.uri with
          | error e => simp [hmake] at made
          | ok h =>
              simp only [hmake] at made
              obtain rfl := Except.ok.inj made
              obtain ⟨q, root, q', hroot, -⟩ := make_root hvalue (by simp) hmake
              have serves : Serves config h root :=
                ⟨results, res, block, q, q', read, mem, name, child, by rw [hvalue, hroot], hmake⟩
              simp only [h.handleRequest_congr req (opened h root serves) same.page same.date]

private theorem declared_congr {path : Bytes} (same : SamePage w w')
    (opened : SameOpened config req.uri w w')
    (proxied : ∀ h, (proxy h).handleRequest w req = (proxy h).handleRequest w' req)
    (stated : StatusAt config path → status.handleRequest w req = status.handleRequest w' req)
    (read : config.getLocationResult = .ok results) (mem : res ∈ results)
    (declared : declaration status proxy res = some (path, handler)) :
    handler.handleRequest w req = handler.handleRequest w' req := by
  obtain rfl : path = res.uri := declaration_fst declared
  simp only [declaration, Option.bind_eq_some_iff, Option.map_eq_some_iff] at declared
  obtain ⟨init, known, block, child, other, hmade, heq⟩ := declared
  obtain rfl := (Prod.mk.inj heq).2
  have made : init res.uri block = .ok other := by
    cases hinit : init res.uri block with
    | error e => simp [hinit, Except.toOption] at hmade
    | ok h =>
        simp only [hinit, Except.toOption, Option.some.injEq] at hmade
        rw [hmade]
  unfold initOf at known
  split_ifs at known with echo static page notFound relayed health
  · obtain rfl := Option.some.inj known
    obtain rfl := Except.ok.inj made
    simp only [echoRequestHandler, echoResponse, same.dated]
  · obtain rfl := Option.some.inj known
    exact static_congr same opened read mem static child made
  · obtain rfl := Option.some.inj known
    obtain rfl := Except.ok.inj made
    exact stated ⟨results, res, read, mem, rfl, page⟩
  · obtain rfl := Option.some.inj known
    obtain rfl := Except.ok.inj made
    simp only [notFoundRequestHandler, same.notFound]
  · obtain rfl := Option.some.inj known
    obtain rfl | ⟨h, rfl⟩ := proxy_init_cases made
    · simp only [notFoundRequestHandler, same.notFound]
    · exact proxied h
  · obtain rfl := Option.some.inj known
    obtain rfl := Except.ok.inj made
    simp only [healthRequestHandler, healthResponse, same.dated]

theorem entry_congr {locations : Locations} (same : SamePage w w')
    (opened : SameOpened config req.uri w w')
    (proxied : ∀ h, (proxy h).handleRequest w req = (proxy h).handleRequest w' req)
    (built : locationHandlers status proxy config = .ok locations) {path : Bytes}
    (stated : StatusAt config path → status.handleRequest w req = status.handleRequest w' req)
    (found : locations[path]? = some handler) :
    handler.handleRequest w req = handler.handleRequest w' req := by
  rw [getElem?_table built, firstValue, Option.map_eq_some_iff] at found
  obtain ⟨⟨other, h⟩, found, rfl⟩ := found
  have declared := List.mem_of_find?_eq_some found
  obtain rfl : other = path := by simpa using List.find?_some found
  rw [declarations] at declared
  cases hresults : config.getLocationResult with
  | error e => simp [hresults] at declared
  | ok results =>
      rw [hresults] at declared
      obtain ⟨res, mem, hres⟩ := List.mem_filterMap.mp declared
      exact declared_congr same opened proxied stated hresults mem hres

private theorem SamePage.stated (same : SamePage w w') (env : Env) :
    env.status.handleRequest w req = env.status.handleRequest w' req := by
  simp only [Env.status, statusRequestHandler, statusResponse, same.dated]

theorem SamePage.proxied (same : SamePage w w') (env : Env) (h : ReverseProxyRequestHandler) :
    (env.proxy h).handleRequest w req = (env.proxy h).handleRequest w' req := by
  simp only [Env.proxy, same.handleRequest]

private theorem processReq_world {locations : Locations} {w w' : World} {cache : Cache}
    (same : ∀ (path : Bytes) handler, locations[path]? = some handler →
      handler.handleRequest w req = handler.handleRequest w' req) :
    processReq locations w req cache = processReq locations w' req cache := by
  unfold processReq
  cases cached cache req.uri with
  | some res => rfl
  | none =>
      simp only
      congr 1
      cases route locations req.uri with
      | error e => rfl
      | ok found =>
          cases found with
          | none => rfl
          | some key =>
              simp only [invoke]
              cases hkey : locations[key]? with
              | none => rfl
              | some handler => simp only [same key handler hkey]

end Worlds

/-- A run of confined requests stays a run, with the same answers and the same cache, whatever the
files are that lie neither inside a configured root nor at the path of the error page and are no log
files. -/
theorem answers_confined (config : NginxConfig) (calls : List Call) (cache : Cache)
    (run : Run config calls cache) (confined : ∀ c ∈ calls, Confined config c.request.uri)
    (other : Call → Env) (agree : ∀ c ∈ calls, Agree config c.env (other c)) :
    Run config (calls.map (fun c => { c with env := other c })) cache := by
  induction run with
  | start => exact .start
  | @call past cache after env locations req res earlier built returned ih =>
      have before := ih (fun c hc => confined c (by simp [hc])) (fun c hc => agree c (by simp [hc]))
      rw [List.map_append, List.map_singleton]
      have last := agree _ (List.mem_append_right _ List.mem_cons_self)
      have here := confined _ (List.mem_append_right _ List.mem_cons_self)
      generalize other _ = env' at last ⊢
      have same : processReq locations env.world req cache =
          processReq locations env'.world req cache :=
        processReq_world (fun path handler found => entry_congr last.samePage
          (fun h root serves path opened => last.files path (opens_readable serves here opened))
          (last.samePage.proxied env) built (fun _ => last.samePage.stated env) found)
      simp only at last ⊢
      rw [last.status, last.proxy] at built
      rw [same] at returned ⊢
      exact .call before built returned

private theorem serves_staticConfig {h : StaticRequestHandler} {root : Bytes}
    (serves : Serves staticConfig h root) :
    h = ⟨lit "./static/", lit "/s/"⟩ ∧ root = lit "./static" := by
  obtain ⟨results, res, block, q, q', read, mem, -, child, value, made⟩ := serves
  obtain rfl := Except.ok.inj read
  obtain rfl := List.mem_singleton.mp mem
  obtain rfl := Option.some.inj child
  refine ⟨(Except.ok.inj made).symm, ?_⟩
  have quoted : lit "\"./static\"" = q :: root ++ [q'] := Except.ok.inj value
  have inner : (lit "\"./static\"").tail.dropLast = root := by
    rw [quoted, List.cons_append, List.tail_cons, List.dropLast_concat]
  rw [← inner]
  decide

/-- A request for a file below the root is answered alike whatever another file holds. -/
theorem answers_confined_static :
    ∃ calls cache, Run staticConfig calls cache ∧ calls.length = 1 ∧
      Run staticConfig (calls.map (fun c => { c with env :=
        ⟨⟨fun path => if path = lit "/secret" then some (lit "x") else none, []⟩,
          fun _ _ => none, 0, [], []⟩ })) cache := by
  have run : Run staticConfig ([] ++ [⟨⟨⟨fun _ => none, []⟩, fun _ _ => none, 0, [], []⟩, _,
      ⟨.GET, lit "/s/a", lit "HTTP/1.1", ∅, []⟩, _, _⟩]) _ :=
    .call .start rfl rfl
  refine ⟨_, _, run, rfl, answers_confined _ _ _ run ?_ _ ?_⟩
  · intro c hc h root serves _
    obtain ⟨rfl, rfl⟩ := serves_staticConfig serves
    rw [List.mem_singleton.mp hc]
    exact ⟨.inr (by decide), by decide⟩
  · intro c hc
    rw [List.mem_singleton.mp hc]
    refine ⟨rfl, rfl, rfl, rfl, rfl, fun path readable => ?_⟩
    have other : path ≠ lit "/secret" := by
      rintro rfl
      rcases readable with page | ⟨h, root, serves, absolute, -⟩
      · revert page
        decide
      · obtain ⟨rfl, rfl⟩ := serves_staticConfig serves
        revert absolute
        decide
    simp [other]

end Wnza.Server.Confinement
