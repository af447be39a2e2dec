/- GID: Wnza/Server/Isolation
   generality: I
   source: src/session.cc (process_req, thread_work), src/server.cc
   digest: Sessions that ask for URIs of their own are served as if the others were silent. -/

import Wnza.Server.Confinement
import Wnza.Server.Streams

set_option autoImplicit false
set_option relaxedAutoImplicit false

namespace Wnza.Server.Isolation

open Wnza.Http.Text
open Wnza.Http.Parser (Request)
open Wnza.Config.Tree
open Wnza.Handler.Basic
open Wnza.Handler.Echo
open Wnza.Handler.Status
open Wnza.Session.Dispatch
open Wnza.Session.Receive
open Wnza.Session.Transparency
open Wnza.Server.Steps (ServerState Client Answer)
open Wnza.Server.Writes
open Wnza.Server.Linearization (seen)
open Wnza.Server.Streams (Trace)
open Wnza.Server.Table
open Wnza.Server.Declarations (plainLocation)
open Wnza.Server.Service
open Wnza.Server.Confinement

/-- The sessions of the group ask for the URIs of the group, and the other sessions for none of
them. -/
def Apart (group : Nat → Prop) (own : Bytes → Prop) (σ : State) : Event → Prop
  | .server (.work i _) => ∀ c d rest, σ.server.clients[i]? = some c → c.pending = d :: rest →
      (own d.request.uri ↔ group i)
  | _ => True

/-- Clients connect, but only those of the group are ever heard of. -/
def Only (group : Nat → Prop) (_ : State) : Event → Prop
  | .server .accept => True
  | .server (.read i _) => group i
  | .server (.work i _) => group i
  | .send i => group i

/-- Two worlds that differ at most in the log files. -/
structure SameButLogs (logs : Bytes → Prop) (w w' : World) : Prop where
  files : ∀ path, ¬ logs path → w.files path = w'.files path
  date : w.date = w'.date

def session : Event → Option Nat
  | .server .accept => none
  | .server (.read i _) => some i
  | .server (.work i _) => some i
  | .send i => some i

/-- An event of the group, or a client that connects.  What the others have asked for stands in the
log, so the log files may be different ones without them. -/
inductive Replayed (logs : Bytes → Prop) (group : Nat → Prop) : Event → Event → Prop
  | accept : Replayed logs group (.server .accept) (.server .accept)
  | read {i : Nat} {data : Bytes} (mine : group i) :
      Replayed logs group (.server (.read i data)) (.server (.read i data))
  | work {i : Nat} {w w' : World} (mine : group i) (same : SameButLogs logs w w') :
      Replayed logs group (.server (.work i w)) (.server (.work i w'))
  | send {i : Nat} (mine : group i) : Replayed logs group (.send i) (.send i)

/-- The same events without those of the others. -/
inductive Silenced (logs : Bytes → Prop) (group : Nat → Prop) : List Event → List Event → Prop
  | start : Silenced logs group [] []
  | keep {events events' : List Event} {e e' : Event}
      (before : Silenced logs group events events') (same : Replayed logs group e e') :
      Silenced logs group (events ++ [e]) (events' ++ [e'])
  | skip {events events' : List Event} {e : Event} {i : Nat}
      (before : Silenced logs group events events') (whose : session e = some i)
      (other : ¬ group i) : Silenced logs group (events ++ [e]) events'

/-- No log file is read for a URI: the path selected for it is none of a status page, and no static
location opens a log file. -/
structure Unlogged (config : NginxConfig) (locations : Locations) (logs : Bytes → Prop)
    (uri : Bytes) : Prop where
  page : ∀ path, route locations uri = .ok (some path) → ¬ StatusAt config path
  files : ∀ h root, Serves config h root → ∀ path, h.opens uri = some path → ¬ logs path

/-- Two sessions that their clients cannot tell apart. -/
structure SameView (c d : Client) : Prop where
  parsing : c.parsing = d.parsing
  pending : c.pending = d.pending
  reported : c.reported = d.reported
  answers : c.answers.map seen = d.answers.map seen

/-- A server, and one on which the others are silent. -/
structure Alike (group : Nat → Prop) (own : Bytes → Prop) (σ τ : State) : Prop where
  connected : σ.server.clients.length = τ.server.clients.length
  sessions : ∀ i, group i → SameView (clientAt σ.server i) (clientAt τ.server i)
  wires : ∀ i, group i → σ.wires i = τ.wires i
  cache : ∀ uri, own uri → σ.server.cache[uri]? = τ.server.cache[uri]?

section Calls

variable {locations : Locations} {w w' : World} {req : Request} {cache cache' after : Cache}
  {res : Response} {logs : Bytes → Prop} {config : NginxConfig} {status : RequestHandler}
  {env : Env}

def AnsweredAlike (locations : Locations) (req : Request) (w w' : World) : Prop :=
  ∀ key handler, route locations req.uri = .ok (some key) → locations[key]? = some handler →
    handler.handleRequest w req = handler.handleRequest w' req

private theorem SameButLogs.answeredAlike (same : SameButLogs logs w w')
    (error : ¬ logs (lit "404page.html")) (unlogged : Unlogged config locations logs req.uri)
    (built : locationHandlers status env.proxy config = .ok locations) :
    AnsweredAlike locations req w w' := by
  intro key handler routed found
  have page : SamePage w w' := ⟨same.files _ error, same.date⟩
  have opened : SameOpened config req.uri w w' := by
    intro h root serves path opens
    exact same.files path (unlogged.files h root serves path opens)
  exact entry_congr page opened (page.proxied env) built
    (fun stated => absurd stated (unlogged.page key routed)) found

private theorem processReq_congr (entry : cache[req.uri]? = cache'[req.uri]?)
    (alike : AnsweredAlike locations req w w')
    (returned : (processReq locations w req cache).result = .ok (res, after)) :
    ∃ after', (processReq locations w' req cache').result = .ok (res, after') ∧
      ∀ uri : Bytes, cache[uri]? = cache'[uri]? → after[uri]? = after'[uri]? := by
  have same : cached cache' req.uri = cached cache req.uri := by
    rw [cached, cached, entry]
  obtain ⟨hit, rfl⟩ | ⟨fresh, unrouted, rfl⟩ |
    ⟨fresh, valid, key, handler, routed, found, answered, rfl⟩ := processReq_ok returned
  · refine ⟨cache', ?_, fun uri h => h⟩
    simp only [processReq, same, hit]
  · rw [processReq_of_unrouted w fresh unrouted, refuse, Except.ok.injEq, Prod.mk.injEq] at returned
    refine ⟨cache', ?_, fun uri h => h⟩
    rw [processReq_of_unrouted w' (same.trans fresh) unrouted, refuse, returned.1]
  · refine ⟨cache'.insert req.uri res, ?_, fun uri h => ?_⟩
    · rw [(processReq_of_routed w' valid (same.trans fresh) routed found).2,
        ← alike key handler routed found, answered]
      rfl
    · rw [Std.ExtTreeMap.getElem?_insert, Std.ExtTreeMap.getElem?_insert, h]

end Calls

section Runs

variable {locations : Locations} {group : Nat → Prop} {own : Bytes → Prop} {σ σ' τ : State}
  {e : Event} {i : Nat} {w w' : World} {data : Bytes}

private theorem SameView.refl (c : Client) : SameView c c := ⟨rfl, rfl, rfl, rfl⟩

private theorem Alike.client (h : Alike group own σ τ) {c : Client}
    (client : σ.server.clients[i]? = some c) (mine : group i) :
    ∃ c', τ.server.clients[i]? = some c' ∧ SameView c c' := by
  obtain ⟨bound, -⟩ := List.getElem?_eq_some_iff.mp client
  rw [h.connected] at bound
  have same := h.sessions i mine
  rw [clientAt_eq client, clientAt_eq (List.getElem?_eq_getElem bound)] at same
  exact ⟨_, List.getElem?_eq_getElem bound, same⟩

private theorem Alike.skip (h : Alike group own σ τ) {server : ServerState} {wire : Wire}
    (connected : server.clients.length = σ.server.clients.length) (other : ¬ group i)
    (same : ∀ j, j ≠ i → clientAt server j = clientAt σ.server j)
    (cache : ∀ uri, own uri → server.cache[uri]? = σ.server.cache[uri]?) :
    Alike group own (σ.update server i wire) τ := by
  have differs : ∀ j, group j → j ≠ i := by
    rintro j mine rfl
    exact other mine
  refine ⟨connected.trans h.connected, fun j mine => ?_, fun j mine => ?_, fun uri huri => ?_⟩
  · rw [State.update, same j (differs j mine)]
    exact h.sessions j mine
  · simp only [State.update, Function.update_of_ne (differs j mine)]
    exact h.wires j mine
  · exact (cache uri huri).trans (h.cache uri huri)

private theorem clientAt_set_self {server : ServerState} {clients : List Client} {c d : Client}
    (found : clients[i]? = some d) (set : server.clients = clients.set i c) :
    clientAt server i = c := by
  obtain ⟨bound, -⟩ := List.getElem?_eq_some_iff.mp found
  rw [clientAt, set, List.getElem?_set_self bound, Option.getD_some]

private theorem Alike.both (h : Alike group own σ τ) {server server' : ServerState}
    {wire wire' : Wire} {c c' d d' : Client} (found : σ.server.clients[i]? = some d)
    (found' : τ.server.clients[i]? = some d') (set : server.clients = σ.server.clients.set i c)
    (set' : server'.clients = τ.server.clients.set i c') (view : SameView c c')
    (wires : wire = wire') (cache : ∀ uri, own uri → server.cache[uri]? = server'.cache[uri]?) :
    Alike group own (σ.update server i wire) (τ.update server' i wire') := by
  have other : ∀ (υ : State) (server : ServerState) (c : Client) (j : Nat),
      server.clients = υ.server.clients.set i c → j ≠ i →
        clientAt server j = clientAt υ.server j := by
    intro υ server c j set hj
    rw [clientAt, clientAt, set, List.getElem?_set_ne hj.symm]
  refine ⟨?_, fun j mine => ?_, fun j mine => ?_, cache⟩
  · simp only [State.update, set, set', List.length_set]
    exact h.connected
  · simp only [State.update]
    by_cases hj : j = i
    · subst hj
      rw [clientAt_set_self found set, clientAt_set_self found' set']
      exact view
    · rw [other σ server c j set hj, other τ server' c' j set' hj]
      exact h.sessions j mine
  · simp only [State.update]
    by_cases hj : j = i
    · subst hj
      rw [Function.update_self, Function.update_self, wires]
    · rw [Function.update_of_ne hj, Function.update_of_ne hj]
      exact h.wires j mine

private theorem responseBytes_of_ok {a : Answer} {res : Response} {cache : Cache}
    (h : a.processed.result = .ok (res, cache)) : responseBytes a = res.build.flatten := by
  simp only [responseBytes, h]

private theorem seen_of_ok {a : Answer} {res : Response} {cache : Cache}
    (h : a.processed.result = .ok (res, cache)) : seen a = (a.delivery, some res) := by
  simp only [seen, h, Except.toOption, Option.map_some]

private theorem Alike.accept (h : Alike group own σ τ)
    (next : Step locations σ (.server .accept) σ') :
    ∃ τ', Step locations τ (.server .accept) τ' ∧ Alike group own σ' τ' := by
  cases next with
  | accept next =>
      cases next
      refine ⟨_, .accept .accept, ?_, fun i mine => ?_, h.wires, h.cache⟩
      · simp only [List.length_append, h.connected]
      · simp only [clientAt_concat]
        exact h.sessions i mine

private theorem Alike.read (h : Alike group own σ τ) (mine : group i)
    (next : Step locations σ (.server (.read i data)) σ') :
    ∃ τ', Step locations τ (.server (.read i data)) τ' ∧ Alike group own σ' τ' := by
  cases next with
  | read next client =>
      cases next with
      | read found idle size received =>
          obtain rfl := eq_of_getElem?_set found client
          obtain ⟨d', found', view⟩ := h.client found mine
          rw [view.parsing] at received
          rw [view.pending] at idle
          obtain ⟨bound, -⟩ := List.getElem?_eq_some_iff.mp found'
          refine ⟨_, .read (.read found' idle size received) (List.getElem?_set_self bound), ?_⟩
          refine h.both found found' rfl rfl ?_ ?_ h.cache
          · exact ⟨rfl, rfl, by rw [view.reported], view.answers⟩
          · rw [h.wires i mine]

private theorem Alike.work (h : Alike group own σ τ) (mine : group i)
    (apart : Apart group own σ (.server (.work i w)))
    (alike : ∀ req : Request, own req.uri → AnsweredAlike locations req w w')
    (next : Step locations σ (.server (.work i w)) σ') :
    ∃ τ', Step locations τ (.server (.work i w')) τ' ∧ Alike group own σ' τ' := by
  cases next with
  | work next client last =>
      cases next with
      | @work _ _ d delivery rest res cache found pending served =>
          obtain rfl := eq_of_getElem?_set found client
          obtain ⟨rfl, hlast⟩ := List.append_inj' last rfl
          obtain rfl := (List.cons.inj hlast).1
          have whose := (apart d delivery rest found pending).mpr mine
          obtain ⟨d', found', view⟩ := h.client found mine
          obtain ⟨cache', served', kept⟩ :=
            processReq_congr (h.cache _ whose) (alike delivery.request whose) served
          have pending' := pending
          rw [view.pending] at pending'
          obtain ⟨bound, -⟩ := List.getElem?_eq_some_iff.mp found'
          refine ⟨_, .work (.work found' pending' served') (List.getElem?_set_self bound) rfl, ?_⟩
          refine h.both found found' rfl rfl ?_ ?_ (fun uri huri => kept uri (h.cache uri huri))
          · refine ⟨view.parsing, rfl, view.reported, ?_⟩
            simp only [List.map_append, List.map_cons, List.map_nil, view.answers]
            rw [seen_of_ok (by exact served), seen_of_ok (by exact served')]
          · rw [h.wires i mine, responseBytes_of_ok (by exact served),
              responseBytes_of_ok (by exact served')]

private theorem Alike.send (h : Alike group own σ τ) (mine : group i)
    (next : Step locations σ (.send i) σ') :
    ∃ τ', Step locations τ (.send i) τ' ∧ Alike group own σ' τ' := by
  cases next with
  | @send _ before after piece rest here some =>
      have here' := here
      rw [h.wires i mine] at here'
      refine ⟨_, .send here' some, h.connected, h.sessions, ?_, h.cache⟩
      intro j hj
      simp only [State.update]
      by_cases same : j = i
      · subst same
        rw [Function.update_self, Function.update_self, h.wires j mine]
      · rw [Function.update_of_ne same, Function.update_of_ne same, h.wires j hj]

private theorem Alike.others (h : Alike group own σ τ) (whose : session e = some i)
    (other : ¬ group i) (apart : Apart group own σ e) (next : Step locations σ e σ') :
    Alike group own σ' τ := by
  cases next with
  | accept next =>
      cases next
      cases whose
  | read next client =>
      cases next
      obtain rfl := Option.some.inj whose
      refine h.skip ?_ other (fun j hj => clientAt_set_ne hj) (fun _ _ => rfl)
      simp only [ServerState.update, List.length_set]
  | work next client last =>
      cases next with
      | @work _ _ d delivery rest res cache found pending served =>
          obtain rfl := Option.some.inj whose
          refine h.skip ?_ other (fun j hj => clientAt_set_ne hj) ?_
          · simp only [List.length_set]
          · intro uri huri
            refine getElem?_of_served served ?_
            rintro rfl
            exact other ((apart d delivery rest found pending).mp huri)
  | send =>
      obtain rfl := Option.some.inj whose
      exact h.skip rfl other (fun _ _ => rfl) (fun _ _ => rfl)

private theorem Alike.replay {logs : Bytes → Prop} {e' : Event} (h : Alike group own σ τ)
    (apart : Apart group own σ e)
    (alike : ∀ req : Request, own req.uri → ∀ w w', SameButLogs logs w w' →
      AnsweredAlike locations req w w')
    (replayed : Replayed logs group e e') (next : Step locations σ e σ') :
    ∃ τ', Only group τ e' ∧ Step locations τ e' τ' ∧ Alike group own σ' τ' := by
  cases replayed with
  | accept =>
      obtain ⟨τ', next', h'⟩ := h.accept next
      exact ⟨τ', trivial, next', h'⟩
  | read mine =>
      obtain ⟨τ', next', h'⟩ := h.read mine next
      exact ⟨τ', mine, next', h'⟩
  | work mine same =>
      obtain ⟨τ', next', h'⟩ :=
        h.work mine apart (fun req huri => alike req huri _ _ same) next
      exact ⟨τ', mine, next', h'⟩
  | send mine =>
      obtain ⟨τ', next', h'⟩ := h.send mine next
      exact ⟨τ', mine, next', h'⟩

private theorem Silenced.concat_inv {logs : Bytes → Prop} {events kept : List Event}
    (h : Silenced logs group (events ++ [e]) kept) :
    (∃ events' e', kept = events' ++ [e'] ∧ Silenced logs group events events' ∧
      Replayed logs group e e') ∨
    (∃ i, session e = some i ∧ ¬ group i ∧ Silenced logs group events kept) := by
  generalize split : events ++ [e] = whole at h
  cases h with
  | start => simp at split
  | keep before same =>
      obtain ⟨rfl, last⟩ := List.append_inj' split rfl
      obtain rfl := (List.cons.inj last).1
      exact .inl ⟨_, _, rfl, before, same⟩
  | skip before whose other =>
      obtain ⟨rfl, last⟩ := List.append_inj' split rfl
      obtain rfl := (List.cons.inj last).1
      exact .inr ⟨_, whose, other, before⟩

private theorem Alike.trace {logs : Bytes → Prop} {events events' : List Event}
    (alike : ∀ req : Request, own req.uri → ∀ w w', SameButLogs logs w w' →
      AnsweredAlike locations req w w')
    (run : Trace locations (Apart group own) events σ)
    (silenced : Silenced logs group events events') :
    ∃ τ, Trace locations (Only group) events' τ ∧ Alike group own σ τ := by
  induction run generalizing events' with
  | start =>
      generalize none : ([] : List Event) = whole at silenced
      cases silenced with
      | start => exact ⟨_, .start, rfl, fun _ _ => .refl _, fun _ _ => rfl, fun _ _ => rfl⟩
      | keep => simp at none
      | skip => simp at none
  | step _ apart next ih =>
      obtain ⟨kept, e', rfl, before, same⟩ | ⟨i, whose, other, before⟩ := silenced.concat_inv
      · obtain ⟨τ, run, h⟩ := ih before
        obtain ⟨τ', only, next', h'⟩ := h.replay apart alike same next
        exact ⟨τ', run.step only next', h'⟩
      · obtain ⟨τ, run, h⟩ := ih before
        exact ⟨τ, run, h.others whose other apart next⟩

end Runs

/-- On the table of a configuration, in every run in which a group of sessions asks for URIs of its
own, for which no log file is read: without the events of the others, whatever the log files then
are, the sessions of the group get the same answers and the same bytes. -/
theorem sessions_isolated (config : NginxConfig) (status : RequestHandler) (env : Env)
    (locations : Locations) (built : locationHandlers status env.proxy config = .ok locations)
    (logs : Bytes → Prop) (error : ¬ logs (lit "404page.html")) (group : Nat → Prop)
    (own : Bytes → Prop) (unlogged : ∀ uri, own uri → Unlogged config locations logs uri)
    (events events' : List Event) (silenced : Silenced logs group events events') (σ : State)
    (run : Trace locations (Apart group own) events σ) :
    ∃ τ, Trace locations (Only group) events' τ ∧ ∀ i, group i →
      SameView (clientAt σ.server i) (clientAt τ.server i) ∧ σ.wires i = τ.wires i := by
  obtain ⟨τ, silent, alike⟩ := Alike.trace
    (fun req huri w w' same => same.answeredAlike error (unlogged _ huri) built) run silenced
  exact ⟨τ, silent, fun i mine => ⟨alike.sessions i mine, alike.wires i mine⟩⟩

def watchedConfig : NginxConfig :=
  ⟨[plainLocation "/echo/" "EchoHandler", plainLocation "/status" "StatusHandler"]⟩

def logFile : Bytes := lit "../log/sample_log_0.log"

def logReader : RequestHandler where
  handleRequest w _ := .ok (statusResponse [] (w.files logFile).toList w)
  getHandlerName := lit "StatusHandler"

def quietEnv : Env := ⟨⟨fun _ => none, []⟩, fun _ _ => none, 0, [], []⟩

/-- A world in which the log has one line. -/
def logged (line : String) : World :=
  ⟨fun path => if path = logFile then some (lit line) else none, []⟩

def watchedLocations : Locations :=
  ((∅ : Locations).insertIfNew (lit "/echo/") echoRequestHandler).insertIfNew (lit "/status")
    logReader

private theorem unlogged_echo :
    Unlogged watchedConfig watchedLocations (· = logFile) (lit "/echo/") where
  page path selected stated := by
    obtain ⟨results, res, read, mem, rfl, status⟩ := stated
    obtain rfl := Except.ok.inj read
    have routed : route watchedLocations (lit "/echo/") = .ok (some (lit "/echo/")) := rfl
    have uri := Option.some.inj (Except.ok.inj (routed.symm.trans selected))
    rcases List.mem_pair.mp mem with rfl | rfl
    · exact absurd status (by decide)
    · exact absurd uri (by decide)
  files h root serves := by
    obtain ⟨results, res, block, q, q', read, mem, name, -⟩ := serves
    obtain rfl := Except.ok.inj read
    rcases List.mem_pair.mp mem with rfl | rfl
    · exact absurd name (by decide)
    · exact absurd name (by decide)

/-- One session has a page echoed while another one asks for the status page; alone, with its own
request in the log only, it gets the same bytes. -/
theorem sessions_isolated_status :
    ∃ σ τ,
      Trace watchedLocations (Apart (· = 0) (· = lit "/echo/"))
        [.server .accept, .server .accept, .server (.read 0 (lit "GET /echo/ HTTP/1.0\r\n\r\n")),
          .server (.read 1 (lit "GET /status HTTP/1.0\r\n\r\n")), .server (.work 1 (logged "")),
          .server (.work 0 (logged "ResponseMetrics: /status"))] σ ∧
      (σ.wires 1).writing ≠ [] ∧ (σ.wires 0).writing ≠ [] ∧
      Trace watchedLocations (Only (· = 0))
        [.server .accept, .server .accept, .server (.read 0 (lit "GET /echo/ HTTP/1.0\r\n\r\n")),
          .server (.work 0 (logged ""))] τ ∧
      (τ.wires 0).writing = (σ.wires 0).writing := by
  have built : locationHandlers logReader quietEnv.proxy watchedConfig = .ok watchedLocations := rfl
  have received : ReceivedReporting .fresh (lit "GET /status HTTP/1.0\r\n\r\n")
      [⟨.good, ⟨.GET, lit "/status", lit "HTTP/1.0", ∅, []⟩⟩]
      [⟨.good, ⟨.GET, lit "/status", lit "HTTP/1.0", ∅, []⟩⟩] .fresh :=
    ⟨1, rfl, rfl⟩
  have apart : ∀ (σ : State) (i : Nat) (c : Client) (d : Delivery) (w : World),
      σ.server.clients[i]? = some c → c.pending = [d] → (d.request.uri = lit "/echo/" ↔ i = 0) →
        Apart (· = 0) (· = lit "/echo/") σ (.server (.work i w)) := by
    intro σ i c d w client pending whose c' d' rest client' pending'
    obtain rfl := Option.some.inj (client.symm.trans client')
    obtain ⟨rfl, -⟩ := List.cons.inj (pending.symm.trans pending')
    exact whose
  have first : Trace watchedLocations (Apart (· = 0) (· = lit "/echo/"))
      ([] ++ [.server .accept]) _ :=
    .step .start trivial (.accept .accept)
  have second := first.step (e := .server .accept) trivial (.accept .accept)
  have mine := second.step (e := .server (.read 0 (lit "GET /echo/ HTTP/1.0\r\n\r\n"))) trivial
    (.read (.read (c := .connected) rfl rfl (by decide) received_echoRequest) rfl)
  have theirs := mine.step (e := .server (.read 1 (lit "GET /status HTTP/1.0\r\n\r\n"))) trivial
    (.read (.read (c := .connected) rfl rfl (by decide) received) rfl)
  have shown := theirs.step (e := .server (.work 1 (logged "")))
    (apart _ 1 _ _ _ rfl rfl (by decide)) (.work (.work rfl rfl rfl) rfl rfl)
  have echoed := shown.step (e := .server (.work 0 (logged "ResponseMetrics: /status")))
    (apart _ 0 _ _ _ rfl rfl (by decide)) (.work (.work rfl rfl rfl) rfl rfl)
  have same : SameButLogs (· = logFile) (logged "ResponseMetrics: /status") (logged "") :=
    ⟨fun path other => by simp [logged, other], rfl⟩
  have isolated := fun kept silenced => sessions_isolated watchedConfig logReader quietEnv _ built
    (· = logFile) (by decide) (· = 0) (· = lit "/echo/")
    (by
      rintro uri rfl
      exact unlogged_echo)
    _ kept silenced _ echoed
  obtain ⟨τ, silent, view⟩ := isolated _
    (.keep (.skip (.skip (.keep (.keep (.keep .start .accept) .accept) (.read rfl)) rfl (by decide))
      rfl (by decide)) (.work rfl same))
  refine ⟨_, τ, echoed, ?_, ?_, silent, by rw [← (view 0 rfl).2]⟩
  · simp [State.update]
  · simp [State.update]

end Wnza.Server.Isolation
