/- GID: Wnza/Server/Program
   generality: I
   source: src/server_main.cc (main), src/config_parser.cc (Parse), src/server.cc (server::server)
   digest: The program from its command line to the answers of all sessions. -/

import Wnza.Config.Ports
import Wnza.Server.Declarations
import Wnza.Server.Strand
import Wnza.Session.Transparency

set_option autoImplicit false
set_option relaxedAutoImplicit false

namespace Wnza.Server.Program

open Wnza.Foundation.FirstInsert
open Wnza.Foundation.Longest
open Wnza.Http.Text
open Wnza.Http.Parser (Request)
open Wnza.Config.Tree
open Wnza.Config.Ports
open Wnza.Handler.Basic
open Wnza.Handler.Echo
open Wnza.Handler.ProxyTarget
open Wnza.Session.Dispatch
open Wnza.Session.Transparency
open Wnza.Server.Steps (ServerState Client Answer)
open Wnza.Server.Table
open Wnza.Server.Declarations

/-- How a run of the program begins: it exits, or it serves on a port until a signal stops it. -/
inductive Outcome
  | exit (code : Nat)
  | serve (port : Nat) (locations : Locations)

/-- `Parse` on a file: one that cannot be opened is rejected. -/
def parseFile (files : Bytes → Option Bytes) (name : Bytes) : Except Fault (Option NginxConfig) :=
  match files name with
  | none => .ok none
  | some text => (Config.Parser.parse text).getD (.ok none)

/-- `(short)port`. -/
def toShort (port : Int) : Int := port.bmod (2 ^ 16)

/-- The port of `tcp::endpoint(tcp::v4(), port)`, whose type is `unsigned short`. -/
def endpointPort (port : Int) : Nat := (port % 2 ^ 16).toNat

/-- The `catch` clause, by the text of the exception. -/
def catchException (what : Bytes) : Outcome :=
  if what = lit "bind: Permission denied" then .exit 0 else .exit 1

/-- `main`, given the files, what binding a port throws, if anything, and the handlers whose answers
depend on the log files and on other hosts.  The acceptor is bound before the table is built. -/
def main (files : Bytes → Option Bytes) (bind : Nat → Option Bytes) (status : RequestHandler)
    (proxy : ReverseProxyRequestHandler → RequestHandler) (argv : List Bytes) :
    Except Fault Outcome :=
  match argv with
  | [_, name] =>
      match parseFile files name with
      | .error e => .error e
      | .ok none => .ok (.exit 1)
      | .ok (some config) =>
          if config.parsePort = -1 then .ok (.exit 1)
          else
            let port := endpointPort (toShort config.parsePort)
            match bind port with
            | some what => .ok (catchException what)
            | none =>
                match locationHandlers status proxy config with
                | .ok locations => .ok (.serve port locations)
                | .error .undefinedBehaviour => .error .undefinedBehaviour
                | .error _ => .ok (.exit 1)
  | _ => .ok (.exit 1)

section Startup

variable {files : Bytes → Option Bytes} {bind : Nat → Option Bytes} {status : RequestHandler}
  {proxy : ReverseProxyRequestHandler → RequestHandler} {argv : List Bytes} {port : Nat}
  {locations : Locations} {config : NginxConfig} {v : Bytes}

private theorem endpointPort_toShort {p : Int} (low : 0 ≤ p) (high : p ≤ 65535) :
    (endpointPort (toShort p) : Int) = p := by
  have wrapped : (p.bmod (2 ^ 16)) % 2 ^ 16 = p % 2 ^ 16 := Int.bmod_emod
  rw [endpointPort, toShort, wrapped]
  omega

private theorem catchException_ne (what : Bytes) : catchException what ≠ .serve port locations := by
  unfold catchException
  split_ifs
  · simp
  · simp

private theorem parseFile_some {name : Bytes} (h : parseFile files name = .ok (some config)) :
    ∃ text, files name = some text ∧ Config.Parser.parse text = some (.ok (some config)) := by
  unfold parseFile at h
  cases opened : files name with
  | none => simp [opened] at h
  | some text =>
      refine ⟨text, rfl, ?_⟩
      cases parsed : Config.Parser.parse text with
      | none => simp [opened, parsed] at h
      | some result => simpa [opened, parsed] using h

private theorem main_serves
    (starts : main files bind status proxy argv = .ok (.serve port locations)) :
    ∃ command name text config v, argv = [command, name] ∧ files name = some text ∧
      Config.Parser.parse text = some (.ok (some config)) ∧
      (portValues config.statements).find? inRange = some v ∧ (port : Int) = atoi v ∧
      bind port = none ∧ locationHandlers status proxy config = .ok locations := by
  match argv, starts with
  | [command, name], starts =>
      simp only [main] at starts
      cases parsed : parseFile files name with
      | error e => simp [parsed] at starts
      | ok found =>
          cases found with
          | none => simp [parsed] at starts
          | some config =>
              obtain ⟨text, opened, accepted⟩ := parseFile_some parsed
              cases first : (portValues config.statements).find? inRange with
              | none => simp [parsed, parsePort_of_none first] at starts
              | some v =>
                  obtain ⟨low, high⟩ := inRange_iff.mp (List.find?_some first)
                  simp only [parsed, parsePort_of_inRange first,
                    if_neg (atoi_ne_of_inRange (List.find?_some first))] at starts
                  cases bound : bind (endpointPort (toShort (atoi v))) with
                  | some what =>
                      simp only [bound, Except.ok.injEq] at starts
                      exact absurd starts (catchException_ne what)
                  | none =>
                      simp only [bound] at starts
                      cases built : locationHandlers status proxy config with
                      | error e => cases e <;> simp [built] at starts
                      | ok table =>
                          simp only [built, Except.ok.injEq, Outcome.serve.injEq] at starts
                          obtain ⟨rfl, rfl⟩ := starts
                          exact ⟨command, name, text, config, v, rfl, opened, accepted, first,
                            endpointPort_toShort low high, bound, built⟩

end Startup

/-- The handler of the first statement for the selected path has computed this response to some
valid request for the URI. -/
def Computed (declared : List (Bytes × RequestHandler)) (uri : Bytes) (res : Response) : Prop :=
  ∃ w req path handler, req.uri = uri ∧ req.method ≠ .INVALID ∧ Selected declared uri path ∧
    firstValue declared path = some handler ∧ handler.handleRequest w req = .ok res

/-- A request that no statement is for. -/
def Unclaimed (declared : List (Bytes × RequestHandler)) (req : Request) : Prop :=
  req.method = .INVALID ∨ ∀ path ∈ declared.map Prod.fst, ¬ Accepted req.uri path

/-- An answer that the statements of a configuration account for. -/
def Explained (declared : List (Bytes × RequestHandler)) (a : Answer) : Prop :=
  ∃ res cache, a.processed.result = .ok (res, cache) ∧
    (Computed declared a.delivery.request.uri res ∨
      Unclaimed declared a.delivery.request ∧ res = Response.empty.make400Error)

/-- All that the sessions have been answered, and may be, is accounted for. -/
structure Accounted (declared : List (Bytes × RequestHandler)) (σ : ServerState) : Prop where
  stored : ∀ (uri : Bytes) res, σ.cache[uri]? = some res → Computed declared uri res
  given : ∀ c ∈ σ.clients, ∀ a ∈ c.answers, Explained declared a

section Answers

variable {status : RequestHandler} {proxy : ReverseProxyRequestHandler → RequestHandler}
  {config : NginxConfig} {locations : Locations}

private theorem explained_call (built : locationHandlers status proxy config = .ok locations)
    (named : ∀ key ∈ locations, key ≠ []) {w : World} {d : Session.Receive.Delivery}
    {cache after : Cache} {res : Response}
    (stored : ∀ (uri : Bytes) r, cache[uri]? = some r →
      Computed (declarations status proxy config) uri r)
    (served : (processReq locations w d.request cache).result = .ok (res, after)) :
    Explained (declarations status proxy config)
        ⟨d, cache, processReq locations w d.request cache⟩ ∧
      ∀ (uri : Bytes) r, after[uri]? = some r →
        Computed (declarations status proxy config) uri r := by
  obtain ⟨hit, rfl⟩ | ⟨fresh, unrouted, rfl⟩ |
    ⟨fresh, valid, path, handler, routed, found, answered, rfl⟩ := processReq_ok served
  · refine ⟨⟨res, after, served, .inl (stored _ _ ?_)⟩, stored⟩
    rw [cached] at hit
    split_ifs at hit
    exact hit
  · refine ⟨⟨res, after, served, .inr ⟨?_, ?_⟩⟩, stored⟩
    · exact unrouted.imp_right (route_undeclared_iff built named).mp
    · rw [processReq_of_unrouted w fresh unrouted, refuse, Except.ok.injEq, Prod.mk.injEq] at served
      exact served.1.symm
  · have selected := (route_declared_iff built named).mp routed
    rw [getElem?_table built] at found
    have computed : Computed (declarations status proxy config) d.request.uri res :=
      ⟨w, d.request, path, handler, rfl, valid, selected, found, answered⟩
    refine ⟨⟨res, _, served, .inl computed⟩, ?_⟩
    intro uri r entry
    by_cases same : d.request.uri = uri
    · subst same
      rw [Std.ExtTreeMap.getElem?_insert_self] at entry
      obtain rfl := Option.some.inj entry
      exact computed
    · rw [getElem?_of_served served same] at entry
      exact stored uri r entry

private theorem Accounted.step (built : locationHandlers status proxy config = .ok locations)
    (named : ∀ key ∈ locations, key ≠ []) {σ τ : ServerState} {e : Steps.Event}
    (h : Accounted (declarations status proxy config) σ) (next : Steps.Step locations σ e τ) :
    Accounted (declarations status proxy config) τ := by
  cases next with
  | accept => exact ⟨h.stored, forall_mem_concat h.given (by simp [Client.connected])⟩
  | @read i data c out reports t client =>
      refine ⟨h.stored, fun x hx => ?_⟩
      rcases List.mem_or_eq_of_mem_set hx with hx | rfl
      · exact h.given x hx
      · exact h.given c (List.mem_of_getElem? client)
  | work client pending served =>
      obtain ⟨explained, stored⟩ := explained_call built named h.stored served
      refine ⟨stored, fun x hx => ?_⟩
      rcases List.mem_or_eq_of_mem_set hx with hx | rfl
      · exact h.given x hx
      · exact forall_mem_concat (h.given _ (List.mem_of_getElem? client)) explained

private theorem accounted (built : locationHandlers status proxy config = .ok locations)
    (named : ∀ key ∈ locations, key ≠ []) {B : Writes.State → Writes.Event → Prop}
    {σ : Writes.State} (run : Writes.Reaches locations B σ) :
    Accounted (declarations status proxy config) σ.server := by
  induction run with
  | start => exact ⟨by simp [Writes.State.started, ServerState.started],
      by simp [Writes.State.started, ServerState.started]⟩
  | step _ _ next ih =>
      cases next with
      | accept next => exact ih.step built named next
      | read next => exact ih.step built named next
      | work next => exact ih.step built named next
      | send => exact ih

end Answers

/-- If the program serves, it has been given one file, whose text is a configuration; it listens on
the port of the first `port` statement, at any depth, whose value is in range; and in every state
that its callbacks reach, in any order, every answer given to any session is the one that the
location statements of the text account for. -/
theorem program_explained (files : Bytes → Option Bytes) (bind : Nat → Option Bytes)
    (status : RequestHandler) (proxy : ReverseProxyRequestHandler → RequestHandler)
    (argv : List Bytes) (port : Nat) (locations : Locations)
    (starts : main files bind status proxy argv = .ok (.serve port locations)) :
    ∃ command name text config v, argv = [command, name] ∧ files name = some text ∧
      Config.Parser.parse text = some (.ok (some config)) ∧
      (portValues config.statements).find? inRange = some v ∧ (port : Int) = atoi v ∧
      bind port = none ∧
      ((∀ path ∈ (declarations status proxy config).map Prod.fst, path ≠ []) →
        ∀ σ, Strand.Reachable locations σ → ∀ l ∈ σ.links, ∀ a ∈ l.client.answers,
          Explained (declarations status proxy config) a) := by
  obtain ⟨command, name, text, config, v, args, opened, accepted, first, value, bound, built⟩ :=
    main_serves starts
  refine ⟨command, name, text, config, v, args, opened, accepted, first, value, bound, ?_⟩
  intro paths σ reachable l hl a ha
  have named : ∀ key ∈ locations, key ≠ [] :=
    fun key hkey => paths key ((mem_table_iff built key).mp hkey)
  have run := Strand.refined reachable
  exact (accounted built named run).given l.client (List.mem_map_of_mem hl) a ha

/-- A configuration with one location, and one request for it. -/
theorem program_explained_echo :
    ∃ σ l a, Strand.Reachable echoLocations σ ∧ σ.links = [l] ∧ l.client.answers = [a] ∧
      Explained [(lit "/echo/", echoRequestHandler)] a := by
  obtain ⟨σ, l, a, reachable, links, -, answers⟩ := Strand.reachable_echo
  have starts : main
      (fun _ => some (lit "port 80;\nlocation \"/echo/\" EchoHandler \x7b\x7d\n"))
      (fun _ => none) notFoundRequestHandler (fun _ => notFoundRequestHandler)
      [lit "server", lit "conf"] = .ok (.serve 80 echoLocations) := rfl
  obtain ⟨command, name, text, config, v, -, opened, accepted, -, -, -, explained⟩ :=
    program_explained _ _ _ _ _ _ _ starts
  have parsed : Config.Parser.parse
      (lit "port 80;\nlocation \"/echo/\" EchoHandler \x7b\x7d\n") =
        some (.ok (some ⟨portStatement "80" :: echoConfig.statements⟩)) := rfl
  obtain rfl := Option.some.inj opened
  obtain rfl := Option.some.inj (Except.ok.inj (Option.some.inj (parsed.symm.trans accepted)))
  refine ⟨σ, l, a, reachable, links, answers, ?_⟩
  apply explained ?_ σ reachable l (by simp [links]) a (by simp [answers])
  intro path hpath
  rw [List.mem_singleton.mp hpath]
  decide

end Wnza.Server.Program
