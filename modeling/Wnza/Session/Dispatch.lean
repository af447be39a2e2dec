/- GID: Wnza/Session/Dispatch
   generality: I
   source: src/session.cc
   digest: One call of `process_req`: the cache, the search for a location and the handler. -/

import Wnza.Foundation.Longest
import Wnza.Handler.Echo

set_option autoImplicit false
set_option relaxedAutoImplicit false

namespace Wnza.Session.Dispatch

open Wnza.Foundation.Longest
open Wnza.Http.Text
open Wnza.Http.Parser
open Wnza.Handler.Basic
open Wnza.Handler.Echo

/-- `std::map` from location keys to handlers. -/
abbrev Locations := Std.ExtTreeMap Bytes RequestHandler

/-- The table of `location "/echo/" EchoHandler {}`. -/
def echoLocations : Locations := (∅ : Locations).insert (lit "/echo/") echoRequestHandler

/-- The unordered map `cache_query`; only its lookup and its update are used. -/
abbrev Cache := Std.ExtTreeMap Bytes Response

/-- `s.substr(pos, len)`; `s.compare(pos, len, t) == 0` compares this piece with `t`. -/
def substr (s : Bytes) (pos len : Nat) : Except Fault Bytes :=
  if s.length < pos then .error .outOfRange else .ok ((s.drop pos).take len)

/-- `key.length() - 1` as a `size_t`. -/
def lengthMinusOne (key : Bytes) : Nat :=
  if key = [] then 2 ^ 64 - 1 else key.length - 1

def skips (uri key : Bytes) : Except Fault Bool :=
  if key.length < uri.length then
    match substr uri (lengthMinusOne key) 1 with
    | .error e => .error e
    | .ok piece => .ok (piece != lit "/")
  else .ok false

def comparesEqual (uri key : Bytes) : Except Fault Bool :=
  match substr uri 0 (lengthMinusOne key), substr key 0 (lengthMinusOne key) with
  | .ok piece, .ok stem => .ok (piece == stem)
  | .error e, _ => .error e
  | .ok _, .error e => .error e

/-- The variables of the search for a location. -/
structure Search where
  matched : Bool
  maxMatchedLength : Nat
  maxMatchedKey : Bytes

def Search.start : Search := ⟨false, 0, []⟩

def Search.visit (uri : Bytes) (s : Search) (key : Bytes) : Except Fault Search :=
  match skips uri key with
  | .error e => .error e
  | .ok true => .ok s
  | .ok false =>
      match comparesEqual uri key with
      | .error e => .error e
      | .ok false => .ok s
      | .ok true =>
          if s.maxMatchedLength < key.length then .ok ⟨true, key.length, key⟩
          else .ok { s with matched := true }

/-- The loop over the locations in key order, from the variables reached so far. -/
def Search.run (uri : Bytes) (s : Search) : List Bytes → Except Fault Search
  | [] => .ok s
  | key :: keys =>
      match s.visit uri key with
      | .error e => .error e
      | .ok t => Search.run uri t keys

/-- The location that a URI is dispatched to. -/
def route (locations : Locations) (uri : Bytes) : Except Fault (Option Bytes) :=
  match Search.start.run uri locations.keys with
  | .error e => .error e
  | .ok s => .ok (if s.matched then some s.maxMatchedKey else none)

/-- The line of `log_metrics`, without the address of the peer. -/
structure Metrics where
  code : StatusCode
  path : Bytes
  handlerName : Bytes

/-- What one call of `process_req` does: whether it answers from the cache, the locations
whose handlers it invokes, the metrics it logs, and the answer with the cache left behind. -/
structure Processed where
  fromCache : Bool
  invoked : List Bytes
  metrics : List Metrics
  result : Except Fault (Response × Cache)

def cached (cache : Cache) (uri : Bytes) : Option Response :=
  if uri = lit "/status" then none else cache[uri]?

def invoke (locations : Locations) (w : World) (req : Request) (cache : Cache) (key : Bytes) :
    Processed :=
  match locations[key]? with
  | none => ⟨false, [], [], .error .outOfRange⟩
  | some handler =>
      match handler.handleRequest w req with
      | .error e => ⟨false, [key], [], .error e⟩
      | .ok res => ⟨false, [key], [⟨res.code, req.uri, handler.getHandlerName⟩],
          .ok (res, cache.insert req.uri res)⟩

def refuse (cache : Cache) : Processed :=
  ⟨false, [], [], .ok (Response.empty.make400Error, cache)⟩

def processReq (locations : Locations) (w : World) (req : Request) (cache : Cache) : Processed :=
  match cached cache req.uri with
  | some res => ⟨true, [], [], .ok (res, cache)⟩
  | none =>
      if req.method = .INVALID then refuse cache
      else
        match route locations req.uri with
        | .error e => ⟨false, [], [], .error e⟩
        | .ok none => refuse cache
        | .ok (some key) => invoke locations w req cache key

/-- What the two tests of the loop accept, for a key that is not empty. -/
def Accepted (uri key : Bytes) : Prop :=
  (key.length < uri.length → uri[key.length - 1]? = some SLASH) ∧
    uri.take (key.length - 1) = key.dropLast

instance (uri key : Bytes) : Decidable (Accepted uri key) :=
  inferInstanceAs (Decidable (_ ∧ _))

private theorem skips_eq {uri key : Bytes} (hkey : key ≠ []) :
    skips uri key =
      .ok (decide (key.length < uri.length ∧ uri[key.length - 1]? ≠ some SLASH)) := by
  unfold skips
  by_cases hlt : key.length < uri.length
  · have inside : ¬ uri.length < key.length - 1 := by omega
    have slash : lit "/" = [SLASH] := by decide
    have piece : (uri.drop (key.length - 1)).take 1 = [SLASH] ↔
        uri[key.length - 1]? = some SLASH := by
      rw [List.take_one, List.head?_drop]
      cases uri[key.length - 1]? <;> simp
    have read : substr uri (lengthMinusOne key) 1 = .ok ((uri.drop (key.length - 1)).take 1) := by
      rw [lengthMinusOne, if_neg hkey, substr, if_neg inside]
    rw [if_pos hlt, read, slash]
    by_cases hslash : uri[key.length - 1]? = some SLASH
    · simp [hslash, piece.mpr hslash]
    · simp [hslash, hlt, bne_iff_ne.mpr (fun h => hslash (piece.mp h))]
  · simp [hlt]

private theorem comparesEqual_eq {uri key : Bytes} (hkey : key ≠ []) :
    comparesEqual uri key = .ok (decide (uri.take (key.length - 1) = key.dropLast)) := by
  simp only [comparesEqual, substr, lengthMinusOne, if_neg hkey, Nat.not_lt_zero, if_false,
    List.drop_zero, ← List.dropLast_eq_take]
  congr 1
  rw [Bool.eq_iff_iff]
  simp

def Search.keeping : Option Bytes → Search
  | none => .start
  | some key => ⟨true, key.length, key⟩

private theorem visit_keeping {uri key : Bytes} (best : Option Bytes) (hkey : key ≠ []) :
    (Search.keeping best).visit uri key = .ok (Search.keeping
      (if Accepted uri key then keepLonger List.length best key else best)) := by
  have positive : 0 < key.length := List.length_pos_iff.mpr hkey
  rw [Search.visit, skips_eq hkey, comparesEqual_eq hkey]
  by_cases hskip : key.length < uri.length ∧ uri[key.length - 1]? ≠ some SLASH
  · have refused : ¬ Accepted uri key := fun h => hskip.2 (h.1 hskip.1)
    simp [hskip, refused]
  · by_cases hequal : uri.take (key.length - 1) = key.dropLast
    · have accepted : Accepted uri key := by
        refine ⟨fun hlt => ?_, hequal⟩
        by_contra hne
        exact hskip ⟨hlt, hne⟩
      simp only [hskip, hequal, decide_true, decide_false, if_pos accepted]
      cases best with
      | none => simp [Search.keeping, Search.start, keepLonger, positive]
      | some b =>
          by_cases hlt : b.length < key.length
          · simp [Search.keeping, keepLonger, hlt]
          · simp [Search.keeping, keepLonger, hlt]
    · have refused : ¬ Accepted uri key := fun h => hequal h.2
      simp [hskip, hequal, refused]

private theorem run_keeping (uri : Bytes) {keys : List Bytes} (best : Option Bytes)
    (hkeys : ∀ key ∈ keys, key ≠ []) :
    (Search.keeping best).run uri keys = .ok (Search.keeping
      ((keys.filter (fun key => Accepted uri key)).foldl (keepLonger List.length) best)) := by
  induction keys generalizing best with
  | nil => rfl
  | cons key keys ih =>
      have rest : ∀ k ∈ keys, k ≠ [] := fun k hk => hkeys k (by simp [hk])
      rw [Search.run, visit_keeping best (hkeys key (by simp))]
      simp only [ih _ rest]
      by_cases accepted : Accepted uri key
      · simp [accepted]
      · simp [accepted]

theorem route_eq {locations : Locations} (hkeys : ∀ key ∈ locations, key ≠ []) (uri : Bytes) :
    route locations uri =
      .ok (firstLongest List.length (locations.keys.filter (fun key => Accepted uri key))) := by
  have named : ∀ key ∈ locations.keys, key ≠ [] :=
    fun key hkey => hkeys key (Std.ExtTreeMap.mem_keys.mp hkey)
  have run := run_keeping uri none named
  rw [show Search.keeping none = Search.start from rfl] at run
  rw [route, run, firstLongest]
  cases (locations.keys.filter (fun key => Accepted uri key)).foldl
    (keepLonger List.length) none <;> rfl

theorem processReq_ok {locations : Locations} {w : World} {req : Request} {cache cache' : Cache}
    {res : Response} (h : (processReq locations w req cache).result = .ok (res, cache')) :
    (cached cache req.uri = some res ∧ cache' = cache) ∨
    (cached cache req.uri = none ∧
      (req.method = .INVALID ∨ route locations req.uri = .ok none) ∧ cache' = cache) ∨
    (cached cache req.uri = none ∧ req.method ≠ .INVALID ∧
      ∃ key handler, route locations req.uri = .ok (some key) ∧
        locations[key]? = some handler ∧ handler.handleRequest w req = .ok res ∧
        cache' = cache.insert req.uri res) := by
  unfold processReq at h
  cases hcached : cached cache req.uri with
  | some r =>
      simp only [hcached, Except.ok.injEq, Prod.mk.injEq] at h
      exact .inl ⟨by rw [h.1], h.2.symm⟩
  | none =>
      simp only [hcached] at h
      by_cases hmethod : req.method = .INVALID
      · rw [if_pos hmethod, refuse, Except.ok.injEq, Prod.mk.injEq] at h
        exact .inr (.inl ⟨rfl, .inl hmethod, h.2.symm⟩)
      · rw [if_neg hmethod] at h
        cases hroute : route locations req.uri with
        | error e => simp [hroute] at h
        | ok found =>
            cases found with
            | none =>
                simp only [hroute, refuse, Except.ok.injEq, Prod.mk.injEq] at h
                exact .inr (.inl ⟨rfl, .inr rfl, h.2.symm⟩)
            | some key =>
                simp only [hroute, invoke] at h
                cases hkey : locations[key]? with
                | none => simp [hkey] at h
                | some handler =>
                    simp only [hkey] at h
                    cases hres : handler.handleRequest w req with
                    | error e => simp [hres] at h
                    | ok r =>
                        simp only [hres, Except.ok.injEq, Prod.mk.injEq] at h
                        obtain ⟨rfl, rfl⟩ := h
                        exact .inr (.inr ⟨rfl, hmethod, key, handler, rfl, hkey, hres, rfl⟩)

theorem processReq_of_unrouted {locations : Locations} {req : Request} {cache : Cache}
    (w : World) (fresh : cached cache req.uri = none)
    (unrouted : req.method = .INVALID ∨ route locations req.uri = .ok none) :
    processReq locations w req cache = refuse cache := by
  rcases unrouted with invalid | hroute
  · simp only [processReq, fresh, if_pos invalid]
  · simp only [processReq, fresh, hroute, ite_self]

theorem processReq_of_routed {locations : Locations} {req : Request} {cache : Cache}
    {key : Bytes} {handler : RequestHandler} (w : World) (valid : req.method ≠ .INVALID)
    (fresh : cached cache req.uri = none) (routed : route locations req.uri = .ok (some key))
    (found : locations[key]? = some handler) :
    (processReq locations w req cache).invoked = [key] ∧
      (processReq locations w req cache).result =
        (handler.handleRequest w req).map (fun res => (res, cache.insert req.uri res)) := by
  simp only [processReq, fresh, if_neg valid, routed, invoke, found]
  cases handler.handleRequest w req with
  | error e => exact ⟨rfl, rfl⟩
  | ok res => exact ⟨rfl, rfl⟩

end Wnza.Session.Dispatch
