/- GID: Wnza/Server/Steps
   generality: I
   source: src/server.cc, src/session.cc
   digest: Sessions that share one cache, step by step, and the fate of malformed requests. -/

import Wnza.Session.Dispatch
import Wnza.Session.Receive

set_option autoImplicit false
set_option relaxedAutoImplicit false

namespace Wnza.Server.Steps

open Wnza.Foundation.DoWhile
open Wnza.Http.Text
open Wnza.Http.Parser
open Wnza.Handler.Basic
open Wnza.Session.Dispatch
open Wnza.Session.Receive

/-- A call of `process_req` on the way to a client: the cache before it and what it does. -/
structure Answer where
  delivery : Delivery
  before : Cache
  processed : Processed

/-- A session: the request under construction, the requests of the last read that
`thread_work` still has to process, and a record of all verdicts reported and answers given. -/
structure Client where
  parsing : Parsing
  pending : List Delivery
  reported : List Delivery
  answers : List Answer

def Client.connected : Client := ⟨.fresh, [], [], []⟩

structure ServerState where
  cache : Cache
  clients : List Client

def ServerState.started : ServerState := ⟨∅, []⟩

def ServerState.update (σ : ServerState) (i : Nat) (c : Client) : ServerState :=
  { σ with clients := σ.clients.set i c }

inductive Event
  | accept
  | read (i : Nat) (data : Bytes)
  | work (i : Nat) (w : World)

/-- One step of the server.  A session reads again when the requests of its last read have
been processed; the calls of `process_req` of different sessions come in any order. -/
inductive Step (locations : Locations) (σ : ServerState) : Event → ServerState → Prop
  | accept : Step locations σ .accept { σ with clients := σ.clients ++ [.connected] }
  | read {i : Nat} {data : Bytes} {c : Client} {out reports : List Delivery} {t : Parsing}
      (client : σ.clients[i]? = some c) (idle : c.pending = []) (size : data.length ≤ 8192)
      (received : ReceivedReporting c.parsing data out reports t) :
      Step locations σ (.read i data)
        (σ.update i { c with parsing := t, pending := out, reported := c.reported ++ reports })
  | work {i : Nat} {w : World} {c : Client} {d : Delivery} {rest : List Delivery}
      {res : Response} {cache : Cache} (client : σ.clients[i]? = some c)
      (next : c.pending = d :: rest)
      (served : (processReq locations w d.request σ.cache).result = .ok (res, cache)) :
      Step locations σ (.work i w)
        { cache := cache
          clients := σ.clients.set i { c with
            pending := rest
            answers := c.answers ++
              [⟨d, σ.cache, processReq locations w d.request σ.cache⟩] } }

/-- The servers reached by steps that meet a condition. -/
inductive Reaches (locations : Locations) (B : ServerState → Event → Prop) : ServerState → Prop
  | start : Reaches locations B .started
  | step {σ τ : ServerState} {e : Event} (before : Reaches locations B σ) (meets : B σ e)
      (next : Step locations σ e τ) : Reaches locations B τ

/-- The parser reported bad, or the method is none of the four. -/
def Malformed (d : Delivery) : Prop := d.verdict = .bad ∨ d.request.method = .INVALID

/-- An answer 400 that no handler and no cache entry has a part in, and that leaves the cache
as it was. -/
structure Rejected (before : Cache) (p : Processed) : Prop where
  fromCache : p.fromCache = false
  invoked : p.invoked = []
  answer : ∃ res, p.result = .ok (res, before) ∧ res.code = .BAD_REQ

/-- Neither the cache nor a location answers for the request. -/
def Unanswerable (locations : Locations) (cache : Cache) (req : Request) : Prop :=
  cached cache req.uri = none ∧ (req.method = .INVALID ∨ route locations req.uri = .ok none)

private theorem rejected_iff {locations : Locations} {w : World} {req : Request} {cache : Cache} :
    Rejected cache (processReq locations w req cache) ↔ Unanswerable locations cache req := by
  constructor
  · intro h
    cases hcached : cached cache req.uri with
    | some res =>
        have hit : (processReq locations w req cache).fromCache = true := by
          simp only [processReq, hcached]
        rw [h.fromCache] at hit
        cases hit
    | none =>
        refine ⟨hcached, ?_⟩
        by_cases valid : req.method = .INVALID
        · exact .inl valid
        · right
          obtain ⟨res, hres, -⟩ := h.answer
          obtain ⟨hit, -⟩ | ⟨-, hrefused, -⟩ | ⟨-, -, key, handler, hroute, hfound, -⟩ :=
            processReq_ok hres
          · rw [hcached] at hit
            cases hit
          · exact hrefused.resolve_left valid
          · have invoked := (processReq_of_routed w valid hcached hroute hfound).1
            rw [h.invoked] at invoked
            cases invoked
  · rintro ⟨fresh, unrouted⟩
    rw [processReq_of_unrouted w fresh unrouted]
    exact ⟨rfl, rfl, _, rfl, rfl⟩

/-- A read in which no pass of the loop reports two verdicts; a malformed request for which
neither the cache nor a location answers. -/
def Benign (locations : Locations) (σ : ServerState) : Event → Prop
  | .accept => True
  | .read i data => ∀ c, σ.clients[i]? = some c →
      ∀ u, Begins (receivePass data) c.parsing u → (passReports data u).length ≤ 1
  | .work i _ => ∀ c d rest, σ.clients[i]? = some c → c.pending = d :: rest → Malformed d →
      Unanswerable locations σ.cache d.request

/-- Every request on which a verdict was reported is answered or waits to be, each once and in
order, and the malformed ones are rejected. -/
structure Sound (c : Client) : Prop where
  accounted : c.reported = c.answers.map Answer.delivery ++ c.pending
  rejected : ∀ a ∈ c.answers, Malformed a.delivery → Rejected a.before a.processed

def RejectsMalformed (σ : ServerState) : Prop := ∀ c ∈ σ.clients, Sound c

private theorem RejectsMalformed.set {σ : ServerState} (h : RejectsMalformed σ) {i : Nat}
    {c : Client} (hc : Sound c) : ∀ x ∈ σ.clients.set i c, Sound x := by
  intro x hx
  rcases List.mem_or_eq_of_mem_set hx with hx | rfl
  · exact h x hx
  · exact hc

private theorem rejectsMalformed_step {locations : Locations} {σ τ : ServerState} {e : Event}
    (h : RejectsMalformed σ) (benign : Benign locations σ e) (step : Step locations σ e τ) :
    RejectsMalformed τ := by
  cases step with
  | accept =>
      exact forall_mem_concat h ⟨rfl, by simp [Client.connected]⟩
  | @read i data c out reports t client idle size received =>
      have sound := h c (List.mem_of_getElem? client)
      obtain rfl := received.out_eq (benign c client)
      refine h.set ⟨?_, sound.rejected⟩
      simp only [sound.accounted, idle, List.append_nil]
  | @work i w c d rest res cache client next served =>
      have sound := h c (List.mem_of_getElem? client)
      refine h.set ⟨?_, ?_⟩
      · simp only [sound.accounted, next, List.map_append, List.map_cons, List.map_nil,
          List.append_assoc, List.singleton_append]
      · exact forall_mem_concat sound.rejected
          (fun malformed => rejected_iff.mpr (benign c d rest client next malformed))

/-- In every run whose steps are benign, whatever the clients send and in whatever order the
sessions work, every malformed request is rejected. -/
theorem malformed_requests_rejected (locations : Locations) (σ : ServerState)
    (run : Reaches locations (Benign locations) σ) : RejectsMalformed σ := by
  induction run with
  | start =>
      intro c hc
      cases hc
  | step before meets next ih => exact rejectsMalformed_step ih meets next

theorem reaches_answer (locations : Locations) (B : ServerState → Event → Prop) (w : World)
    {data : Bytes} {d : Delivery} {res : Response} {cache : Cache} (size : data.length ≤ 8192)
    (received : ReceivedReporting .fresh data [d] [d] .fresh)
    (served : (processReq locations w d.request ∅).result = .ok (res, cache))
    (accepts : B .started .accept) (reads : B ⟨∅, [.connected]⟩ (.read 0 data))
    (works : B ⟨∅, [⟨.fresh, [d], [d], []⟩]⟩ (.work 0 w)) :
    Reaches locations B
      ⟨cache, [⟨.fresh, [], [d], [⟨d, ∅, processReq locations w d.request ∅⟩]⟩]⟩ := by
  have accepted : Reaches locations B ⟨∅, [.connected]⟩ := .step .start accepts .accept
  have read : Reaches locations B ⟨∅, [⟨.fresh, [d], [d], []⟩]⟩ :=
    .step accepted reads
      (@Step.read locations _ 0 data .connected [d] [d] .fresh rfl rfl size received)
  exact .step read works (@Step.work locations ⟨∅, [⟨.fresh, [d], [d], []⟩]⟩ 0 w
    ⟨.fresh, [d], [d], []⟩ d [] res cache rfl rfl served)

theorem malformed_requests_rejected_unknown_method :
    ∃ σ, Reaches echoLocations (Benign echoLocations) σ ∧ RejectsMalformed σ ∧
      ∃ c ∈ σ.clients, ∃ a ∈ c.answers, Malformed a.delivery := by
  have received : ReceivedReporting .fresh (lit "FOO / HTTP/1.0\r\n\r\n")
      [⟨.good, ⟨.INVALID, lit "/", lit "HTTP/1.0", ∅, []⟩⟩]
      [⟨.good, ⟨.INVALID, lit "/", lit "HTTP/1.0", ∅, []⟩⟩] .fresh :=
    ⟨1, rfl, rfl⟩
  have pass : receivePass (lit "FOO / HTTP/1.0\r\n\r\n") .fresh =
      .exit [⟨.good, ⟨.INVALID, lit "/", lit "HTTP/1.0", ∅, []⟩⟩] .fresh :=
    rfl
  have reported : (passReports (lit "FOO / HTTP/1.0\r\n\r\n") .fresh).length = 1 := rfl
  have reads : Benign echoLocations ⟨∅, [.connected]⟩
      (.read 0 (lit "FOO / HTTP/1.0\r\n\r\n")) := by
    intro c client u begins
    obtain rfl := Option.some.inj client
    obtain rfl := begins_of_exit pass begins
    exact le_of_eq reported
  have works : Benign echoLocations
      ⟨∅, [⟨.fresh, [⟨.good, ⟨.INVALID, lit "/", lit "HTTP/1.0", ∅, []⟩⟩],
        [⟨.good, ⟨.INVALID, lit "/", lit "HTTP/1.0", ∅, []⟩⟩], []⟩]⟩
      (.work 0 ⟨fun _ => none, []⟩) := by
    intro c d rest client next _
    obtain rfl := Option.some.inj client
    obtain ⟨rfl, -⟩ := List.cons.inj next
    exact ⟨rfl, .inl rfl⟩
  have run := reaches_answer echoLocations (Benign echoLocations) ⟨fun _ => none, []⟩
    (by decide) received rfl trivial reads works
  refine ⟨_, run, malformed_requests_rejected _ _ run, ?_⟩
  exact ⟨_, List.mem_cons_self, _, List.mem_cons_self, .inr rfl⟩

/-- A request that the parser reported bad is echoed. -/
theorem bad_request_dispatched :
    ∃ σ, Reaches echoLocations (fun _ _ => True) σ ∧ ¬ RejectsMalformed σ := by
  have received : ReceivedReporting .fresh (lit "GET /echo/ X")
      [⟨.bad, ⟨.GET, lit "/echo/", [], ∅, []⟩⟩] [⟨.bad, ⟨.GET, lit "/echo/", [], ∅, []⟩⟩] .fresh :=
    ⟨1, rfl, rfl⟩
  have run := reaches_answer echoLocations (fun _ _ => True) ⟨fun _ => none, []⟩ (by decide)
    received rfl trivial trivial trivial
  refine ⟨_, run, ?_⟩
  intro rejects
  have rejected := (rejects _ List.mem_cons_self).rejected _ List.mem_cons_self (.inl rfl)
  have invoked : [lit "/echo/"] = [] := rejected.invoked
  cases invoked

end Wnza.Server.Steps
