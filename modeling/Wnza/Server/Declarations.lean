/- GID: Wnza/Server/Declarations
   generality: I
   source: src/server.cc (server::server, add_request_handler), src/session.cc (process_req)
   digest: The location statements of a configuration, and the requests that each of them serves. -/

import Wnza.Foundation.FirstInsert
import Wnza.Server.Table
import Wnza.Session.Routing

set_option autoImplicit false
set_option relaxedAutoImplicit false

namespace Wnza.Server.Declarations

open Wnza.Foundation.FirstInsert
open Wnza.Http.Text
open Wnza.Http.Parser
open Wnza.Config.Lexer (QUOTE)
open Wnza.Config.Tree
open Wnza.Handler.Basic
open Wnza.Handler.Echo
open Wnza.Handler.ProxyTarget
open Wnza.Session.Dispatch
open Wnza.Session.Routing
open Wnza.Server.Table

section Declarations

variable (status : RequestHandler) (proxy : ReverseProxyRequestHandler → RequestHandler)

def declaration (res : LocationParseResult) : Option (Bytes × RequestHandler) :=
  (initOf status proxy res.handlerName).bind fun init =>
    res.blockConfig.bind fun block =>
      (init res.uri block).toOption.map fun handler => (res.uri, handler)

/-- The paths and handlers that the statements of a configuration declare, in order. -/
def declarations (config : NginxConfig) : List (Bytes × RequestHandler) :=
  match config.getLocationResult with
  | .error _ => []
  | .ok results => results.filterMap (declaration status proxy)

end Declarations

/-- The path that the search for a location selects: no declared path that it accepts is longer,
and among those of the same length none comes before it in byte order. -/
structure Selected (declared : List (Bytes × RequestHandler)) (uri path : Bytes) : Prop where
  named : path ∈ declared.map Prod.fst
  accepted : Accepted uri path
  best : ∀ other ∈ declared.map Prod.fst, Accepted uri other → other.length < path.length ∨
    other.length = path.length ∧ (other = path ∨ compare path other = .lt)

section Table

variable {status : RequestHandler} {proxy : ReverseProxyRequestHandler → RequestHandler}
  {config : NginxConfig} {locations : Locations}

private theorem addLocations_eq {results : List LocationParseResult} {table : Locations}
    (built : addLocations status proxy results locations = .ok table) :
    table = insertFirst locations (results.filterMap (declaration status proxy)) := by
  induction results generalizing locations with
  | nil => exact (Except.ok.inj built).symm
  | cons res rest ih =>
      rw [addLocations] at built
      cases hinit : initOf status proxy res.handlerName with
      | none =>
          rw [hinit] at built
          have skipped : declaration status proxy res = none := by simp [declaration, hinit]
          rw [List.filterMap_cons_none skipped]
          exact ih built
      | some init =>
          simp only [hinit] at built
          cases hadd : addRequestHandler init res locations with
          | error e => simp [hadd] at built
          | ok more =>
              obtain ⟨block, handler, hblock, hmade, rfl⟩ := addRequestHandler_ok_iff.mp hadd
              rw [hadd] at built
              have declared : declaration status proxy res = some (res.uri, handler) := by
                simp [declaration, hinit, hblock, hmade, Except.toOption]
              rw [List.filterMap_cons_some declared]
              exact ih built

private theorem table_eq (built : locationHandlers status proxy config = .ok locations) :
    locations = insertFirst ∅ (declarations status proxy config) := by
  rw [locationHandlers] at built
  rw [declarations]
  cases hresults : config.getLocationResult with
  | error e => simp [hresults] at built
  | ok results =>
      rw [hresults] at built
      exact addLocations_eq built

theorem getElem?_table (built : locationHandlers status proxy config = .ok locations)
    (path : Bytes) :
    locations[path]? = firstValue (declarations status proxy config) path := by
  rw [table_eq built, getElem?_insertFirst, Std.ExtTreeMap.getElem?_empty, Option.none_or]

theorem mem_table_iff (built : locationHandlers status proxy config = .ok locations)
    (path : Bytes) :
    path ∈ locations ↔ path ∈ (declarations status proxy config).map Prod.fst := by
  rw [Std.ExtTreeMap.mem_iff_isSome_getElem?, getElem?_table built, firstValue,
    Option.isSome_map, List.find?_isSome]
  simp

theorem route_declared_iff (built : locationHandlers status proxy config = .ok locations)
    (named : ∀ key ∈ locations, key ≠ []) {uri path : Bytes} :
    route locations uri = .ok (some path) ↔
      Selected (declarations status proxy config) uri path := by
  have among : ∀ key, key ∈ locations.keys.filter (fun key => Accepted uri key) ↔
      key ∈ (declarations status proxy config).map Prod.fst ∧ Accepted uri key := by
    intro key
    rw [mem_keys_filter, mem_table_iff built]
  rw [route_eq_some_iff named]
  constructor
  · rintro ⟨mem, best⟩
    obtain ⟨declared, accepted⟩ := (among path).mp mem
    exact ⟨declared, accepted, fun other hother h => best other ((among other).mpr ⟨hother, h⟩)⟩
  · rintro ⟨declared, accepted, best⟩
    refine ⟨(among path).mpr ⟨declared, accepted⟩, fun other hother => ?_⟩
    obtain ⟨hother, h⟩ := (among other).mp hother
    exact best other hother h

theorem route_undeclared_iff (built : locationHandlers status proxy config = .ok locations)
    (named : ∀ key ∈ locations, key ≠ []) {uri : Bytes} :
    route locations uri = .ok none ↔
      ∀ path ∈ (declarations status proxy config).map Prod.fst, ¬ Accepted uri path := by
  rw [route_eq_none_iff named]
  exact forall_congr' (fun path => imp_congr_left (mem_table_iff built path))

end Table

/-- What the server does with a request that the cache does not answer, in terms of the statements
of its configuration. -/
structure Dispatched (declared : List (Bytes × RequestHandler)) (w : World) (req : Request)
    (cache : Cache) (p : Processed) : Prop where
  /-- The first statement for the selected path has the request. -/
  served : ∀ path, Selected declared req.uri path → p.invoked = [path] ∧
    ∃ handler, firstValue declared path = some handler ∧
      p.result = (handler.handleRequest w req).map (fun res => (res, cache.insert req.uri res))
  refused : (∀ path ∈ declared.map Prod.fst, ¬ Accepted req.uri path) → p = refuse cache
  covered : (∃ path, Selected declared req.uri path) ∨
    ∀ path ∈ declared.map Prod.fst, ¬ Accepted req.uri path

/-- Of a configuration that can be served, every valid request that the cache does not answer goes
to the handler of the first statement for the selected path. -/
theorem dispatched_by_declaration (status : RequestHandler)
    (proxy : ReverseProxyRequestHandler → RequestHandler) (config : NginxConfig)
    (served : Served status proxy config) :
    ∃ locations, locationHandlers status proxy config = .ok locations ∧
      ∀ w req cache, req.method ≠ .INVALID → cached cache req.uri = none →
        Dispatched (declarations status proxy config) w req cache
          (processReq locations w req cache) := by
  obtain ⟨locations, built, returns⟩ := served
  have named := route_ok_iff.mp returns
  refine ⟨locations, built, fun w req cache valid fresh => ⟨?_, ?_, ?_⟩⟩
  · intro path selected
    have routed := (route_declared_iff built named).mpr selected
    have mem := (mem_table_iff built path).mpr selected.named
    obtain ⟨handler, found⟩ := Option.isSome_iff_exists.mp
      (Std.ExtTreeMap.mem_iff_isSome_getElem?.mp mem)
    obtain ⟨invoked, result⟩ := processReq_of_routed w valid fresh routed found
    rw [getElem?_table built] at found
    exact ⟨invoked, handler, found, result⟩
  · intro unmatched
    exact processReq_of_unrouted w fresh (.inr ((route_undeclared_iff built named).mpr unmatched))
  · obtain ⟨found, routed⟩ := returns req.uri
    cases found with
    | some path => exact .inl ⟨path, (route_declared_iff built named).mp routed⟩
    | none => exact .inr ((route_undeclared_iff built named).mp routed)

/-- The statement `location "path" handlerName {}`. -/
def plainLocation (path handlerName : String) : NginxConfigStatement :=
  .mk [lit "location", [QUOTE] ++ lit path ++ [QUOTE], lit handlerName] (some [])

def overlapping : NginxConfig :=
  ⟨[plainLocation "/" "NotFoundHandler", plainLocation "/echo/" "EchoHandler",
    plainLocation "/echo/" "HealthHandler"]⟩

theorem dispatched_by_declaration_overlapping :
    ∃ locations cache, locationHandlers notFoundRequestHandler (fun _ => notFoundRequestHandler)
        overlapping = .ok locations ∧
      (processReq locations ⟨fun _ => none, []⟩
        ⟨.GET, lit "/echo/a", lit "HTTP/1.1", ∅, []⟩ ∅).invoked = [lit "/echo/"] ∧
      (processReq locations ⟨fun _ => none, []⟩
        ⟨.GET, lit "/echo/a", lit "HTTP/1.1", ∅, []⟩ ∅).result =
          .ok (echoResponse ⟨fun _ => none, []⟩ ⟨.GET, lit "/echo/a", lit "HTTP/1.1", ∅, []⟩,
            cache) ∧
      (processReq locations ⟨fun _ => none, []⟩
        ⟨.GET, lit "/other", lit "HTTP/1.1", ∅, []⟩ ∅).invoked = [lit "/"] := by
  have built : locationHandlers notFoundRequestHandler (fun _ => notFoundRequestHandler)
      overlapping = .ok _ := rfl
  have declared : (declarations notFoundRequestHandler (fun _ => notFoundRequestHandler)
      overlapping).map Prod.fst = [lit "/", lit "/echo/", lit "/echo/"] := rfl
  have keys := fun key hkey => (mem_table_iff built key).mp hkey
  rw [declared] at keys
  have named : ∀ key ∈ [lit "/", lit "/echo/", lit "/echo/"], key ≠ [] := by decide
  obtain ⟨locations, built', dispatched⟩ := dispatched_by_declaration notFoundRequestHandler
    (fun _ => notFoundRequestHandler) overlapping
    ⟨_, built, route_ok_iff.mpr (fun key hkey => named key (keys key hkey))⟩
  have inner : Selected (declarations notFoundRequestHandler (fun _ => notFoundRequestHandler)
      overlapping) (lit "/echo/a") (lit "/echo/") := by
    refine ⟨?_, by decide, ?_⟩
    · rw [declared]
      decide
    · rw [declared]
      decide
  have outer : Selected (declarations notFoundRequestHandler (fun _ => notFoundRequestHandler)
      overlapping) (lit "/other") (lit "/") := by
    refine ⟨?_, by decide, ?_⟩
    · rw [declared]
      decide
    · rw [declared]
      decide
  have first := (dispatched ⟨fun _ => none, []⟩ ⟨.GET, lit "/echo/a", lit "HTTP/1.1", ∅, []⟩ ∅
    (by decide) rfl).served _ inner
  obtain ⟨invoked, handler, stated, result⟩ := first
  obtain rfl := Option.some.inj stated
  refine ⟨locations, _, built', invoked, result, ?_⟩
  exact ((dispatched ⟨fun _ => none, []⟩ ⟨.GET, lit "/other", lit "HTTP/1.1", ∅, []⟩ ∅
    (by decide) rfl).served _ outer).1

/-! Reordered configurations. -/

/-- The location that a statement declares. -/
def location (s : NginxConfigStatement) : Option LocationParseResult := (locationOf s).toOption.join

def declaresPath (path : Bytes) (s : NginxConfigStatement) : Bool :=
  (location s).any (fun res => res.uri = path)

section Reordered

variable {status : RequestHandler} {proxy : ReverseProxyRequestHandler → RequestHandler}
  {config : NginxConfig} {block : List NginxConfigStatement}

private theorem locationsOf_ok_iff {results : List LocationParseResult} :
    locationsOf block = .ok results ↔
      (∀ s ∈ block, ∃ found, locationOf s = .ok found) ∧ results = block.filterMap location := by
  induction block generalizing results with
  | nil => simp [locationsOf, eq_comm]
  | cons s block ih =>
      rw [locationsOf, List.forall_mem_cons]
      cases hs : locationOf s with
      | error e => simp
      | ok found =>
          have here :
            (s :: block).filterMap location = found.toList ++ block.filterMap location := by
            cases found with
            | none => simp [location, hs, Except.toOption]
            | some res => simp [location, hs, Except.toOption]
          rw [here]
          cases hrest : locationsOf block with
          | error e =>
              simp only [reduceCtorEq, false_iff]
              rintro ⟨⟨-, all⟩, -⟩
              have := ih.mpr ⟨all, rfl⟩
              rw [hrest] at this
              cases this
          | ok others =>
              obtain ⟨all, rfl⟩ := ih.mp hrest
              simp only [Except.ok.injEq]
              constructor
              · rintro rfl
                exact ⟨⟨⟨found, rfl⟩, all⟩, rfl⟩
              · rintro ⟨-, rfl⟩
                rfl

/-- A statement stops the constructor of the server if its path is missing, or its handler cannot
be made. -/
def Acceptable (status : RequestHandler) (proxy : ReverseProxyRequestHandler → RequestHandler)
    (s : NginxConfigStatement) : Prop :=
  (∃ found, locationOf s = .ok found) ∧ ∀ res ∈ location s, Buildable status proxy res

private theorem locationHandlers_ok_iff {locations : Locations} :
    locationHandlers status proxy config = .ok locations ↔
      (∀ s ∈ config.statements, Acceptable status proxy s) ∧
        locations = insertFirst ∅
          ((config.statements.filterMap location).filterMap (declaration status proxy)) := by
  have buildable : (∀ res ∈ config.statements.filterMap location, Buildable status proxy res) ↔
      ∀ s ∈ config.statements, ∀ res ∈ location s, Buildable status proxy res := by
    simp only [List.mem_filterMap]
    constructor
    · intro h s hs res hres
      exact h res ⟨s, hs, hres⟩
    · rintro h res ⟨s, hs, hres⟩
      exact h s hs res hres
  rw [locationHandlers]
  cases hresults : config.getLocationResult with
  | error e =>
      simp only [reduceCtorEq, false_iff]
      rintro ⟨acceptable, -⟩
      have read := locationsOf_ok_iff.mpr ⟨fun s hs => (acceptable s hs).1, rfl⟩
      rw [NginxConfig.getLocationResult, read] at hresults
      cases hresults
  | ok results =>
      obtain ⟨readable, rfl⟩ := locationsOf_ok_iff.mp hresults
      constructor
      · intro built
        have all := buildable.mp ((addLocations_ok_iff _ ∅).mp ⟨_, built⟩)
        exact ⟨fun s hs => ⟨readable s hs, all s hs⟩, addLocations_eq built⟩
      · rintro ⟨acceptable, rfl⟩
        obtain ⟨table, built⟩ := (addLocations_ok_iff _ ∅).mpr
          (buildable.mpr (fun s hs => (acceptable s hs).2))
        rw [← addLocations_eq built]
        exact built

private theorem firstValue_cons (d : Bytes × RequestHandler) (ds : List (Bytes × RequestHandler))
    (path : Bytes) :
    firstValue (d :: ds) path = if d.1 = path then some d.2 else firstValue ds path := by
  by_cases same : d.1 = path
  · simp [firstValue, same]
  · simp [firstValue, same]

theorem declaration_fst {res : LocationParseResult} {d : Bytes × RequestHandler}
    (h : declaration status proxy res = some d) : d.1 = res.uri := by
  simp only [declaration, Option.bind_eq_some_iff, Option.map_eq_some_iff] at h
  obtain ⟨init, -, child, -, handler, -, rfl⟩ := h
  rfl

private theorem firstValue_filter (path : Bytes) :
    firstValue ((block.filterMap location).filterMap (declaration status proxy)) path =
      firstValue (((block.filter (declaresPath path)).filterMap location).filterMap
        (declaration status proxy)) path := by
  induction block with
  | nil => rfl
  | cons s block ih =>
      cases hs : location s with
      | none =>
          have other : ¬ declaresPath path s = true := by simp [declaresPath, hs]
          rw [List.filter_cons_of_neg other, List.filterMap_cons_none hs, ih]
      | some res =>
          rw [List.filterMap_cons_some hs]
          by_cases same : res.uri = path
          · have kept : declaresPath path s = true := by simp [declaresPath, hs, same]
            rw [List.filter_cons_of_pos kept, List.filterMap_cons_some hs]
            cases hd : declaration status proxy res with
            | none => rw [List.filterMap_cons_none hd, List.filterMap_cons_none hd, ih]
            | some d =>
                rw [List.filterMap_cons_some hd, List.filterMap_cons_some hd, firstValue_cons,
                  firstValue_cons, ih]
          · have other : ¬ declaresPath path s = true := by simp [declaresPath, hs, same]
            rw [List.filter_cons_of_neg other, ← ih]
            cases hd : declaration status proxy res with
            | none => rw [List.filterMap_cons_none hd]
            | some d =>
                rw [List.filterMap_cons_some hd, firstValue_cons, declaration_fst hd, if_neg same]

end Reordered

/-- Statements may be reordered at will as long as those for one path keep their order: the server
starts with the same table, or with none. -/
theorem statements_reordered (status : RequestHandler)
    (proxy : ReverseProxyRequestHandler → RequestHandler) (config config' : NginxConfig)
    (perm : config.statements.Perm config'.statements)
    (order : ∀ path, config.statements.filter (declaresPath path) =
      config'.statements.filter (declaresPath path)) (locations : Locations) :
    locationHandlers status proxy config = .ok locations ↔
      locationHandlers status proxy config' = .ok locations := by
  rw [locationHandlers_ok_iff, locationHandlers_ok_iff]
  have table : insertFirst (∅ : Locations)
        ((config.statements.filterMap location).filterMap (declaration status proxy)) =
      insertFirst ∅ ((config'.statements.filterMap location).filterMap
        (declaration status proxy)) := by
    apply Std.ExtTreeMap.ext_getElem?
    intro path
    rw [getElem?_insertFirst, getElem?_insertFirst, firstValue_filter, order, ← firstValue_filter]
  rw [table]
  simp only [perm.mem_iff]

/-- The inner location before the outer one, with the two statements for it in their order. -/
theorem statements_reordered_overlapping :
    ∃ locations, locationHandlers notFoundRequestHandler (fun _ => notFoundRequestHandler)
        overlapping = .ok locations ∧
      locationHandlers notFoundRequestHandler (fun _ => notFoundRequestHandler)
        ⟨[plainLocation "/echo/" "EchoHandler", plainLocation "/echo/" "HealthHandler",
          plainLocation "/" "NotFoundHandler"]⟩ = .ok locations := by
  have built : locationHandlers notFoundRequestHandler (fun _ => notFoundRequestHandler)
      overlapping = .ok _ := rfl
  have outer : location (plainLocation "/" "NotFoundHandler") =
      some ⟨lit "/", lit "NotFoundHandler", some ⟨[]⟩⟩ := rfl
  have inner : ∀ name, location (plainLocation "/echo/" name) =
      some ⟨lit "/echo/", lit name, some ⟨[]⟩⟩ := fun _ => rfl
  refine ⟨_, built, (statements_reordered _ _ _ _ ?_ ?_ _).mp built⟩
  · exact @List.perm_append_comm _ [_] [_, _]
  · intro path
    by_cases root : lit "/" = path
    · have other : lit "/echo/" ≠ path := by
        rw [← root]
        decide
      simp [overlapping, declaresPath, outer, inner, root, other]
    · simp [overlapping, declaresPath, outer, inner, root, List.filter_cons]

end Wnza.Server.Declarations
