/- GID: Wnza/Server/Table
   generality: I
   source: src/server.cc (server::server, add_request_handler)
   digest: The handler table of a configuration, and the accepted texts that can be served. -/

import Wnza.Config.Printing
import Wnza.Handler.ProxyTarget
import Wnza.Session.Dispatch

set_option autoImplicit false
set_option relaxedAutoImplicit false

namespace Wnza.Server.Table

open Wnza.Http.Text
open Wnza.Config.Lexer
open Wnza.Config.Parser
open Wnza.Config.Acceptance
open Wnza.Config.Printing
open Wnza.Config.Tree
open Wnza.Handler.Basic
open Wnza.Handler.Echo
open Wnza.Handler.Static
open Wnza.Handler.ProxyTarget
open Wnza.Session.Dispatch

/-- The static function `init` of a handler class. -/
abbrev Init := Bytes → NginxConfig → Except Fault RequestHandler

/-- The `init` that the constructor of the server calls for a handler name, given the handlers
whose answers depend on the log files and on other hosts. -/
def initOf (status : RequestHandler) (proxy : ReverseProxyRequestHandler → RequestHandler)
    (handlerName : Bytes) : Option Init :=
  if handlerName = lit "EchoHandler" then some (fun _ _ => .ok echoRequestHandler)
  else if handlerName = lit "StaticHandler" then some StaticRequestHandler.init
  else if handlerName = lit "StatusHandler" then some (fun _ _ => .ok status)
  else if handlerName = lit "NotFoundHandler" then some (fun _ _ => .ok notFoundRequestHandler)
  else if handlerName = lit "ProxyHandler" then some (ReverseProxyRequestHandler.init proxy)
  else if handlerName = lit "HealthHandler" then some (fun _ _ => .ok healthRequestHandler)
  else none

def addRequestHandler (init : Init) (res : LocationParseResult) (locations : Locations) :
    Except Fault Locations :=
  match res.blockConfig with
  | none => .error .undefinedBehaviour
  | some block =>
      match init res.uri block with
      | .error e => .error e
      | .ok handler => .ok (locations.insertIfNew res.uri handler)

def addLocations (status : RequestHandler) (proxy : ReverseProxyRequestHandler → RequestHandler) :
    List LocationParseResult → Locations → Except Fault Locations
  | [], locations => .ok locations
  | res :: rest, locations =>
      match initOf status proxy res.handlerName with
      | none => addLocations status proxy rest locations
      | some init =>
          match addRequestHandler init res locations with
          | .error e => .error e
          | .ok more => addLocations status proxy rest more

/-- The table that the constructor of the server builds. -/
def locationHandlers (status : RequestHandler)
    (proxy : ReverseProxyRequestHandler → RequestHandler) (config : NginxConfig) :
    Except Fault Locations :=
  match config.getLocationResult with
  | .error e => .error e
  | .ok results => addLocations status proxy results ∅

/-- The table is built, and the search for a location returns for every URI. -/
def Served (status : RequestHandler) (proxy : ReverseProxyRequestHandler → RequestHandler)
    (config : NginxConfig) : Prop :=
  ∃ locations, locationHandlers status proxy config = .ok locations ∧
    ∀ uri, ∃ found, route locations uri = .ok found

def directive (key : Bytes) (block : List NginxConfigStatement) : Option NginxConfigStatement :=
  block.find? (fun s => s.tokens.head? = some key)

def HasValue (key : Bytes) (length : Nat) (block : List NginxConfigStatement) : Prop :=
  ∀ s, directive key block = some s → ∃ value, s.tokens[1]? = some value ∧ length ≤ value.length

def handlerNames : List Bytes :=
  [lit "EchoHandler", lit "StaticHandler", lit "StatusHandler", lit "NotFoundHandler",
    lit "ProxyHandler", lit "HealthHandler"]

/-- A location for a known handler has a block and a path of three bytes or more; the first
`root` of a static location and the first `dest` of a proxy location have a value of three bytes
or more, and next to a `dest` the first `port` has a value. -/
structure Complete (path handlerName : Bytes) (block : Option (List NginxConfigStatement)) :
    Prop where
  quoted : 3 ≤ path.length
  nested : block ≠ none
  root : ∀ b, block = some b → handlerName = lit "StaticHandler" → HasValue (lit "root") 3 b
  dest : ∀ b, block = some b → handlerName = lit "ProxyHandler" → HasValue (lit "dest") 3 b
  port : ∀ b, block = some b → handlerName = lit "ProxyHandler" →
    directive (lit "dest") b ≠ none → HasValue (lit "port") 0 b

/-- Every location for a known handler is complete. -/
def CompleteLocations (config : NginxConfig) : Prop :=
  ∀ path handlerName block,
    .mk [lit "location", path, handlerName] block ∈ config.statements →
      handlerName ∈ handlerNames → Complete path handlerName block

/-! The trees of accepted texts: statements and tokens are not empty. -/

def Worded (block : List NginxConfigStatement) : Prop :=
  ∃ ts, Derives ts block ∧ ∀ w, .word w ∈ ts → w ≠ []

theorem worded_of_parse {text : Bytes} {config : NginxConfig}
    (accepted : parse text = some (.ok (some config))) : Worded config.statements := by
  obtain ⟨-, derives⟩ := parse_accepts_iff.mp accepted
  refine ⟨_, derives, fun w hw => ?_⟩
  rcases isWord_of_lexes (lexes_tokens text) w hw with hrun | ⟨q, body, -, -, rfl⟩
  · rintro rfl
    exact hrun
  · simp

private theorem Worded.mem {block : List NginxConfigStatement} (h : Worded block)
    {s : NginxConfigStatement} (hs : s ∈ block) :
    s.tokens ≠ [] ∧ (∀ w ∈ s.tokens, w ≠ []) ∧ ∀ c, s.childBlock = some c → Worded c := by
  obtain ⟨ts, derives, words⟩ := h
  have named : ∀ w ∈ s.tokens, w ≠ [] := fun w hw => words w (derives.word_mem hs hw)
  have built : s.tokens ≠ [] ∧ ∀ c, s.childBlock = some c → Worded c := by
    clear named
    induction derives with
    | nil => cases hs
    | simple hws _ ih =>
        rcases List.mem_cons.mp hs with rfl | hs
        · refine ⟨hws, fun c hc => ?_⟩
          cases hc
        · exact ih hs (fun w hw => words w (by simp [hw]))
    | @block ws us ts c b hws inner _ _ ih =>
        rcases List.mem_cons.mp hs with rfl | hs
        · refine ⟨hws, fun d hd => ?_⟩
          obtain rfl := Option.some.inj hd
          exact ⟨us, inner, fun w hw => words w (by simp [hw])⟩
        · exact ih hs (fun w hw => words w (by simp [hw]))
  exact ⟨built.1, named, built.2⟩

private theorem Worded.value_cases {block : List NginxConfigStatement} (h : Worded block)
    (key : Bytes) :
    (directive key block = none ∧ valueFromStatements key block = .ok []) ∨
    (∃ s, directive key block = some s ∧ s.tokens[1]? = none ∧
      valueFromStatements key block = .error .undefinedBehaviour) ∨
    ∃ s value, directive key block = some s ∧ s.tokens[1]? = some value ∧ value ≠ [] ∧
      valueFromStatements key block = .ok value := by
  have named : ∀ s ∈ block, s.tokens ≠ [] ∧ ∀ w ∈ s.tokens, w ≠ [] :=
    fun s hs => ⟨(h.mem hs).1, (h.mem hs).2.1⟩
  clear h
  induction block with
  | nil => exact .inl ⟨rfl, rfl⟩
  | cons s block ih =>
      have rest := ih (fun t ht => named t (by simp [ht]))
      obtain ⟨hne, words⟩ := named s (by simp)
      obtain ⟨tokens, child⟩ := s
      cases tokens with
      | nil => exact absurd rfl hne
      | cons first others =>
          by_cases hkey : first = key
          · subst hkey
            cases others with
            | nil =>
                exact .inr (.inl ⟨.mk [first] child, by
                  simp [directive, NginxConfigStatement.tokens], rfl, by
                  simp [valueFromStatements, NginxConfigStatement.tokens]⟩)
            | cons value others =>
                have nonempty : value ≠ [] :=
                  words value (by simp [NginxConfigStatement.tokens])
                exact .inr (.inr ⟨.mk (first :: value :: others) child, value, by
                  simp [directive, NginxConfigStatement.tokens], rfl, nonempty, by
                  simp [valueFromStatements, NginxConfigStatement.tokens]⟩)
          · have skip : directive key (.mk (first :: others) child :: block) =
                directive key block := by
              simp [directive, NginxConfigStatement.tokens, hkey]
            have skip' : valueFromStatements key (.mk (first :: others) child :: block) =
                valueFromStatements key block := by
              simp [valueFromStatements, NginxConfigStatement.tokens, hkey]
            rwa [skip, skip']

private theorem Worded.hasValue_zero {block : List NginxConfigStatement} (h : Worded block)
    (key : Bytes) :
    HasValue key 0 block ↔ ∃ value, valueFromStatements key block = .ok value := by
  obtain ⟨hnone, hvalue⟩ | ⟨s, hs, hmissing, hvalue⟩ | ⟨s, v, hs, hv, -, hvalue⟩ :=
    h.value_cases key
  · simp [HasValue, hnone, hvalue]
  · simp [HasValue, hs, hmissing, hvalue]
  · simp [HasValue, hs, hv, hvalue]

section Inits

variable {uri : Bytes} {block : List NginxConfigStatement}

private theorem ensureSlash_ok_iff {s : Bytes} : (∃ t, ensureSlash s = .ok t) ↔ s ≠ [] := by
  constructor
  · rintro ⟨t, ht⟩
    exact (ensureSlash_inv ht).1
  · intro hs
    rw [ensureSlash, if_neg hs]
    split_ifs
    · exact ⟨s, rfl⟩
    · exact ⟨_, rfl⟩

private theorem take_length_sub_two {v : Bytes} :
    (v.drop 1).take (v.length - 2) ≠ [] ↔ 3 ≤ v.length := by
  rw [← List.length_pos_iff, List.length_take, List.length_drop]
  omega

private theorem static_init_ok_iff (huri : uri ≠ []) (h : Worded block) :
    (∃ handler, StaticRequestHandler.init uri ⟨block⟩ = .ok handler) ↔
      HasValue (lit "root") 3 block := by
  obtain ⟨start, hstart⟩ := ensureSlash_ok_iff.mpr huri
  obtain ⟨hnone, hvalue⟩ | ⟨s, hs, hmissing, hvalue⟩ | ⟨s, v, hs, hv, hne, hvalue⟩ :=
    h.value_cases (lit "root")
  · simp [StaticRequestHandler.init, NginxConfig.getValueFromStatement, hvalue, HasValue, hnone]
  · simp [StaticRequestHandler.init, NginxConfig.getValueFromStatement, hvalue, HasValue, hs,
      hmissing]
  · have rooted : HasValue (lit "root") 3 block ↔ 3 ≤ v.length := by simp [HasValue, hs, hv]
    have inner : StaticRequestHandler.rootUri v = (v.drop 1).take (v.length - 2) := by
      rw [StaticRequestHandler.rootUri, if_pos (by simpa using hne)]
    rw [rooted, ← take_length_sub_two, ← inner]
    obtain ⟨c, v, rfl⟩ := List.exists_cons_of_ne_nil hne
    simp only [StaticRequestHandler.init, StaticRequestHandler.make,
      NginxConfig.getValueFromStatement, hvalue, hstart, ← ensureSlash_ok_iff]
    cases ensureSlash (StaticRequestHandler.rootUri (c :: v)) <;> simp

private theorem proxy_init_ok_iff (proxy : ReverseProxyRequestHandler → RequestHandler)
    (huri : uri ≠ []) (h : Worded block) :
    (∃ handler, ReverseProxyRequestHandler.init proxy uri ⟨block⟩ = .ok handler) ↔
      HasValue (lit "dest") 3 block ∧
        (directive (lit "dest") block ≠ none → HasValue (lit "port") 0 block) := by
  obtain ⟨start, hstart⟩ := ensureSlash_ok_iff.mpr huri
  obtain ⟨hnone, hvalue⟩ | ⟨s, hs, hmissing, hvalue⟩ | ⟨s, v, hs, hv, hne, hvalue⟩ :=
    h.value_cases (lit "dest")
  · simp [ReverseProxyRequestHandler.init, NginxConfig.getValueFromStatement, hvalue, HasValue,
      hnone, bind, Except.bind, pure, Except.pure]
  · simp [ReverseProxyRequestHandler.init, NginxConfig.getValueFromStatement, hvalue, HasValue,
      hs, hmissing, bind, Except.bind]
  · have quoted : HasValue (lit "dest") 3 block ↔ 3 ≤ v.length := by simp [HasValue, hs, hv]
    have inner : unquoted v = .ok ((v.drop 1).take (v.length - 2)) := by
      have := List.length_pos_iff.mpr hne
      rw [unquoted, if_neg (by omega)]
    rw [quoted, ← take_length_sub_two, h.hasValue_zero, ← ensureSlash_ok_iff]
    simp only [ReverseProxyRequestHandler.init, ReverseProxyRequestHandler.make,
      NginxConfig.getValueFromStatement, hvalue, hstart, inner, hs, bind, Except.bind, pure,
      Except.pure]
    cases ensureSlash ((v.drop 1).take (v.length - 2)) with
    | error e => simp [hne, huri]
    | ok dest =>
        cases valueFromStatements (lit "port") block with
        | error e => simp [hne, huri]
        | ok port => simp [hne, huri]

end Inits

section Table

variable {status : RequestHandler} {proxy : ReverseProxyRequestHandler → RequestHandler}

def Buildable (status : RequestHandler) (proxy : ReverseProxyRequestHandler → RequestHandler)
    (res : LocationParseResult) : Prop :=
  ∀ init, initOf status proxy res.handlerName = some init →
    ∃ block handler, res.blockConfig = some block ∧ init res.uri block = .ok handler

private theorem initOf_ne_none_iff (status : RequestHandler)
    (proxy : ReverseProxyRequestHandler → RequestHandler) {name : Bytes} :
    initOf status proxy name ≠ none ↔ name ∈ handlerNames := by
  unfold initOf
  split_ifs <;> simp_all [handlerNames]

theorem addRequestHandler_ok_iff {init : Init} {res : LocationParseResult}
    {locations more : Locations} :
    addRequestHandler init res locations = .ok more ↔
      ∃ block handler, res.blockConfig = some block ∧ init res.uri block = .ok handler ∧
        more = locations.insertIfNew res.uri handler := by
  unfold addRequestHandler
  cases hblock : res.blockConfig with
  | none => simp
  | some block =>
      cases hmade : init res.uri block with
      | error e => simp [hmade]
      | ok handler => simp [hmade, eq_comm]

theorem addLocations_ok_iff (results : List LocationParseResult) (locations : Locations) :
    (∃ table, addLocations status proxy results locations = .ok table) ↔
      ∀ res ∈ results, Buildable status proxy res := by
  induction results generalizing locations with
  | nil => simp [addLocations]
  | cons res rest ih =>
      rw [List.forall_mem_cons, addLocations]
      cases hinit : initOf status proxy res.handlerName with
      | none => simp [Buildable, hinit, ih]
      | some init =>
          cases hadd : addRequestHandler init res locations with
          | error e =>
              refine iff_of_false (by simp [hadd]) ?_
              rintro ⟨first, -⟩
              obtain ⟨block, handler, hblock, hmade⟩ := first init hinit
              have added : addRequestHandler init res locations = .ok _ :=
                addRequestHandler_ok_iff.mpr ⟨block, handler, hblock, hmade, rfl⟩
              cases hadd.symm.trans added
          | ok more =>
              obtain ⟨block, handler, hblock, hmade, -⟩ := addRequestHandler_ok_iff.mp hadd
              have first : Buildable status proxy res := by
                intro other hother
                obtain rfl := Option.some.inj (hinit.symm.trans hother)
                exact ⟨block, handler, hblock, hmade⟩
              simp [hadd, ih, first]

theorem mem_addLocations {results : List LocationParseResult} {locations table : Locations}
    (h : addLocations status proxy results locations = .ok table) (key : Bytes) :
    key ∈ table ↔
      key ∈ locations ∨ ∃ res ∈ results, res.handlerName ∈ handlerNames ∧ res.uri = key := by
  induction results generalizing locations with
  | nil =>
      obtain rfl := Except.ok.inj h
      simp
  | cons res rest ih =>
      rw [addLocations] at h
      cases hinit : initOf status proxy res.handlerName with
      | none =>
          have unknown : res.handlerName ∉ handlerNames := by
            rw [← initOf_ne_none_iff status proxy, hinit]
            simp
          rw [hinit] at h
          rw [ih h]
          simp [unknown]
      | some init =>
          have known : res.handlerName ∈ handlerNames := by
            rw [← initOf_ne_none_iff status proxy, hinit]
            simp
          simp only [hinit] at h
          cases hadd : addRequestHandler init res locations with
          | error e => simp [hadd] at h
          | ok more =>
              obtain ⟨block, handler, -, -, rfl⟩ := addRequestHandler_ok_iff.mp hadd
              rw [hadd] at h
              rw [ih h, Std.ExtTreeMap.mem_insertIfNew, Std.compare_eq_iff_eq]
              simp only [List.mem_cons, exists_eq_or_imp, known, true_and]
              tauto

private theorem visit_ok_of_run {uri : Bytes} {keys : List Bytes} {s t : Search}
    (h : s.run uri keys = .ok t) : ∀ key ∈ keys, ∃ a b, Search.visit uri a key = .ok b := by
  induction keys generalizing s with
  | nil => simp
  | cons key keys ih =>
      rw [Search.run] at h
      cases hvisit : s.visit uri key with
      | error e => simp [hvisit] at h
      | ok next =>
          rw [hvisit] at h
          intro k hk
          rcases List.mem_cons.mp hk with rfl | hk
          · exact ⟨s, next, hvisit⟩
          · exact ih h k hk

theorem route_ok_iff {locations : Locations} :
    (∀ uri, ∃ found, route locations uri = .ok found) ↔ ∀ key ∈ locations, key ≠ [] := by
  constructor
  · rintro returns key hkey rfl
    obtain ⟨found, hfound⟩ := returns (lit "/")
    rw [route] at hfound
    cases hrun : Search.start.run (lit "/") locations.keys with
    | error e => simp [hrun] at hfound
    | ok s =>
        obtain ⟨a, b, hvisit⟩ := visit_ok_of_run hrun [] (Std.ExtTreeMap.mem_keys.mpr hkey)
        cases hvisit
  · intro named uri
    exact ⟨_, route_eq named uri⟩

private theorem locationOf_location {path : Bytes} (hpath : path ≠ []) (name : Bytes)
    (child : Option (List NginxConfigStatement)) :
    locationOf (.mk [lit "location", path, name] child) =
      .ok (some ⟨(path.drop 1).take (path.length - 2), name, child.map .mk⟩) := by
  have positive := List.length_pos_iff.mpr hpath
  have inner : unquoted path = .ok ((path.drop 1).take (path.length - 2)) := by
    rw [unquoted, if_neg (by omega)]
  simp [locationOf, inner]

private theorem locationOf_other {s : NginxConfigStatement}
    (hs : ¬ ∃ path name child, s = .mk [lit "location", path, name] child) :
    locationOf s = .ok none := by
  unfold locationOf
  split
  · rename_i word source name child
    rw [if_neg]
    rintro rfl
    exact hs ⟨source, name, child, rfl⟩
  · rfl

theorem Worded.locations {block : List NginxConfigStatement} (h : Worded block) :
    ∃ results, locationsOf block = .ok results ∧
      ∀ res, res ∈ results ↔ ∃ path name child,
        .mk [lit "location", path, name] child ∈ block ∧
          res = ⟨(path.drop 1).take (path.length - 2), name, child.map .mk⟩ := by
  have named : ∀ s ∈ block, ∀ w ∈ s.tokens, w ≠ [] := fun s hs => (h.mem hs).2.1
  clear h
  induction block with
  | nil => exact ⟨[], rfl, by simp⟩
  | cons s block ih =>
      obtain ⟨others, hothers, hmem⟩ := ih (fun t ht => named t (by simp [ht]))
      by_cases hs : ∃ path name child, s = .mk [lit "location", path, name] child
      · obtain ⟨path, name, child, rfl⟩ := hs
        have nonempty : path ≠ [] := named (.mk [lit "location", path, name] child) (by simp) path
          (by simp [NginxConfigStatement.tokens])
        have found := locationOf_location nonempty name child
        refine ⟨⟨(path.drop 1).take (path.length - 2), name, child.map .mk⟩ :: others, ?_, ?_⟩
        · simp [locationsOf, found, hothers]
        intro res
        rw [List.mem_cons, hmem]
        constructor
        · rintro (rfl | ⟨path, name, child, hin, rfl⟩)
          · exact ⟨path, name, child, by simp, rfl⟩
          · exact ⟨path, name, child, by simp [hin], rfl⟩
        · rintro ⟨path', name', child', hin, rfl⟩
          rcases List.mem_cons.mp hin with heq | hin
          · left
            injection heq with htokens hchild
            injection htokens with _ htokens
            injection htokens with hpath htokens
            injection htokens with hname _
            rw [hpath, hname, hchild]
          · exact .inr ⟨path', name', child', hin, rfl⟩
      · refine ⟨others, by simp [locationsOf, locationOf_other hs, hothers], fun res => ?_⟩
        rw [hmem]
        constructor
        · rintro ⟨path, name, child, hin, rfl⟩
          exact ⟨path, name, child, by simp [hin], rfl⟩
        · rintro ⟨path, name, child, hin, rfl⟩
          rcases List.mem_cons.mp hin with heq | hin
          · exact absurd ⟨path, name, child, heq.symm⟩ hs
          · exact ⟨path, name, child, hin, rfl⟩

private theorem init_ok_iff {name uri : Bytes} {b : List NginxConfigStatement} {init : Init}
    (hinit : initOf status proxy name = some init) (huri : uri ≠ []) (worded : Worded b) :
    (∃ handler, init uri ⟨b⟩ = .ok handler) ↔
      (name = lit "StaticHandler" → HasValue (lit "root") 3 b) ∧
      (name = lit "ProxyHandler" → HasValue (lit "dest") 3 b ∧
        (directive (lit "dest") b ≠ none → HasValue (lit "port") 0 b)) := by
  have other : lit "StaticHandler" ≠ lit "ProxyHandler" := by decide
  by_cases hstatic : name = lit "StaticHandler"
  · subst hstatic
    obtain rfl : StaticRequestHandler.init = init := Option.some.inj hinit
    simp [static_init_ok_iff huri worded, other]
  · by_cases hproxy : name = lit "ProxyHandler"
    · subst hproxy
      obtain rfl : ReverseProxyRequestHandler.init proxy = init := Option.some.inj hinit
      simp [proxy_init_ok_iff proxy huri worded, hstatic]
    · simp only [hstatic, hproxy, false_imp_iff, and_self, iff_true]
      simp only [initOf, if_neg hstatic, if_neg hproxy] at hinit
      split_ifs at hinit
      all_goals
        obtain rfl := Option.some.inj hinit
        exact ⟨_, rfl⟩

private theorem complete_iff (status : RequestHandler)
    (proxy : ReverseProxyRequestHandler → RequestHandler) {path name : Bytes}
    {child : Option (List NginxConfigStatement)} (known : name ∈ handlerNames)
    (worded : ∀ b, child = some b → Worded b) :
    (Buildable status proxy ⟨(path.drop 1).take (path.length - 2), name, child.map .mk⟩ ∧
        (path.drop 1).take (path.length - 2) ≠ []) ↔ Complete path name child := by
  obtain ⟨init, hinit⟩ := Option.ne_none_iff_exists'.mp
    ((initOf_ne_none_iff status proxy).mpr known)
  have buildable : Buildable status proxy ⟨(path.drop 1).take (path.length - 2), name,
      child.map .mk⟩ ↔ ∃ b handler, child = some b ∧
        init ((path.drop 1).take (path.length - 2)) ⟨b⟩ = .ok handler := by
    simp only [Buildable, hinit, Option.some.injEq, forall_eq', Option.map_eq_some_iff]
    constructor
    · rintro ⟨-, handler, ⟨b, rfl, rfl⟩, hmade⟩
      exact ⟨b, handler, rfl, hmade⟩
    · rintro ⟨b, handler, rfl, hmade⟩
      exact ⟨_, handler, ⟨b, rfl, rfl⟩, hmade⟩
  rw [buildable, take_length_sub_two]
  constructor
  · rintro ⟨⟨b, handler, rfl, hmade⟩, hpath⟩
    have huri := take_length_sub_two.mpr hpath
    obtain ⟨root, dest⟩ := (init_ok_iff hinit huri (worded b rfl)).mp ⟨handler, hmade⟩
    refine ⟨hpath, by simp, ?_, ?_, ?_⟩
    · rintro b ⟨⟩ hname
      exact root hname
    · rintro b ⟨⟩ hname
      exact (dest hname).1
    · rintro b ⟨⟩ hname
      exact (dest hname).2
  · intro complete
    obtain ⟨b, rfl⟩ := Option.ne_none_iff_exists'.mp complete.nested
    have huri := take_length_sub_two.mpr complete.quoted
    obtain ⟨handler, hmade⟩ := (init_ok_iff hinit huri (worded b rfl)).mpr
      ⟨complete.root b rfl, fun hname => ⟨complete.dest b rfl hname, complete.port b rfl hname⟩⟩
    exact ⟨⟨b, handler, rfl, hmade⟩, complete.quoted⟩

end Table

/-- An accepted configuration with a port can be served exactly if its locations are complete. -/
theorem served_iff_completeLocations (status : RequestHandler)
    (proxy : ReverseProxyRequestHandler → RequestHandler) (text : Bytes) (config : NginxConfig)
    (accepted : parse text = some (.ok (some config))) (_ported : config.parsePort ≠ -1) :
    Served status proxy config ↔ CompleteLocations config := by
  have worded := worded_of_parse accepted
  obtain ⟨results, hresults, hmem⟩ := worded.locations
  have table : locationHandlers status proxy config = addLocations status proxy results ∅ := by
    rw [locationHandlers, NginxConfig.getLocationResult, hresults]
  have child : ∀ {path name : Bytes} {block : Option (List NginxConfigStatement)},
      .mk [lit "location", path, name] block ∈ config.statements →
        ∀ b, block = some b → Worded b :=
    fun hin b hb => (worded.mem hin).2.2 b hb
  constructor
  · rintro ⟨locations, hbuilt, returns⟩ path name block hin known
    rw [table] at hbuilt
    refine (complete_iff status proxy known (child hin)).mp ⟨?_, ?_⟩
    · exact (addLocations_ok_iff results ∅).mp ⟨locations, hbuilt⟩ _
        ((hmem _).mpr ⟨path, name, block, hin, rfl⟩)
    · refine route_ok_iff.mp returns _ ((mem_addLocations hbuilt _).mpr (.inr ?_))
      exact ⟨_, (hmem _).mpr ⟨path, name, block, hin, rfl⟩, known, rfl⟩
  · intro complete
    have buildable : ∀ res ∈ results, Buildable status proxy res := by
      intro res hres init hinit
      obtain ⟨path, name, block, hin, rfl⟩ := (hmem res).mp hres
      have known : name ∈ handlerNames := by
        rw [← initOf_ne_none_iff status proxy, hinit]
        simp
      exact ((complete_iff status proxy known (child hin)).mpr
        (complete path name block hin known)).1 init hinit
    obtain ⟨locations, hbuilt⟩ := (addLocations_ok_iff results ∅).mpr buildable
    refine ⟨locations, table.trans hbuilt, route_ok_iff.mpr (fun key hkey => ?_)⟩
    rcases (mem_addLocations hbuilt key).mp hkey with hempty | ⟨res, hres, known, rfl⟩
    · exact absurd hempty Std.ExtTreeMap.not_mem_empty
    · obtain ⟨path, name, block, hin, rfl⟩ := (hmem res).mp hres
      exact ((complete_iff status proxy known (child hin)).mpr
        (complete path name block hin known)).2

/-- The configuration `location "/echo/" EchoHandler {}`. -/
def echoConfig : NginxConfig :=
  ⟨[.mk [lit "location", lit "\"/echo/\"", lit "EchoHandler"] (some [])]⟩

/-- The configuration `port 80; location "/s/" StaticHandler { root "./static"; }`. -/
def staticConfig : NginxConfig :=
  ⟨[.mk [lit "port", lit "80"] none,
    .mk [lit "location", lit "\"/s/\"", lit "StaticHandler"] (some staticBlock.statements)]⟩

theorem served_staticConfig :
    parse (lit "port 80;\nlocation \"/s/\" StaticHandler \x7b root \"./static\"; \x7d") =
        some (.ok (some staticConfig)) ∧
      Served notFoundRequestHandler (fun _ => notFoundRequestHandler) staticConfig := by
  have accepted : parse (lit
      "port 80;\nlocation \"/s/\" StaticHandler \x7b root \"./static\"; \x7d") =
        some (.ok (some staticConfig)) := rfl
  have ported : staticConfig.parsePort ≠ -1 := by decide
  refine ⟨accepted, (served_iff_completeLocations _ _ _ _ accepted ported).mpr ?_⟩
  intro path name block hin known
  have hstatement : NginxConfigStatement.mk [lit "location", path, name] block =
      .mk [lit "location", lit "\"/s/\"", lit "StaticHandler"] (some staticBlock.statements) := by
    rcases List.mem_cons.mp hin with hport | hin
    · cases hport
    · exact List.mem_singleton.mp hin
  cases hstatement
  refine ⟨by decide, by simp, ?_, ?_, ?_⟩
  · rintro b ⟨⟩ -
    intro s hs
    cases hs
    exact ⟨lit "\"./static\"", rfl, by decide⟩
  · intro b _ hname
    exact absurd hname (by decide)
  · intro b _ hname
    exact absurd hname (by decide)

/-- The configuration `port 80; location "/s/" StaticHandler { root; }`. -/
def rootlessConfig : NginxConfig :=
  ⟨[.mk [lit "port", lit "80"] none,
    .mk [lit "location", lit "\"/s/\"", lit "StaticHandler"] (some [.mk [lit "root"] none])]⟩

/-- A `root` without a value is accepted, and its value is read past the end of the tokens. -/
theorem root_without_value_not_served :
    parse (lit "port 80;\nlocation \"/s/\" StaticHandler \x7b root; \x7d") =
        some (.ok (some rootlessConfig)) ∧
      rootlessConfig.parsePort ≠ -1 ∧
      locationHandlers notFoundRequestHandler (fun _ => notFoundRequestHandler) rootlessConfig =
        .error .undefinedBehaviour ∧
      ¬ Served notFoundRequestHandler (fun _ => notFoundRequestHandler) rootlessConfig := by
  have fault : locationHandlers notFoundRequestHandler (fun _ => notFoundRequestHandler)
      rootlessConfig = .error .undefinedBehaviour := rfl
  refine ⟨rfl, by decide, fault, ?_⟩
  rintro ⟨locations, hbuilt, -⟩
  cases fault.symm.trans hbuilt

end Wnza.Server.Table
