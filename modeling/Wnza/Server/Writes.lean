/- GID: Wnza/Server/Writes
   generality: I
   source: src/session.cc (thread_work, completed_request), src/connection.cc (write)
   digest: Writes in flight on each connection, sent piece by piece, and when responses mix. -/

import Mathlib.Logic.Function.Basic
import Wnza.Server.Steps

set_option autoImplicit false
set_option relaxedAutoImplicit false

namespace Wnza.Server.Writes

open Wnza.Http.Text
open Wnza.Http.Parser
open Wnza.Handler.Basic
open Wnza.Session.Dispatch
open Wnza.Session.Receive
open Wnza.Server.Steps (ServerState Client Answer)

/-- The complete response of a call of `process_req`: its head, then its body. -/
def responseBytes (a : Answer) : Bytes :=
  match a.processed.result with
  | .ok (res, _) => res.build.flatten
  | .error _ => []

/-- The socket of a session: the requests that `received_req` has passed on so far, what is left
of each write in flight, oldest first, and all bytes sent. -/
structure Wire where
  requests : List Delivery
  writing : List Bytes
  sent : Bytes

/-- The server with the sockets of its sessions, by the number of the session. -/
structure State where
  server : ServerState
  wires : Nat → Wire

def State.started : State := ⟨.started, fun _ => ⟨[], [], []⟩⟩

def State.update (σ : State) (τ : ServerState) (i : Nat) (wire : Wire) : State :=
  ⟨τ, Function.update σ.wires i wire⟩

inductive Event
  | server (e : Steps.Event)
  | send (i : Nat)

/-- One step of the server or of a write in flight.  A read is armed again, and the next write
started, whether or not earlier writes have completed. -/
inductive Step (locations : Locations) (σ : State) : Event → State → Prop
  | accept {τ : ServerState} (next : Steps.Step locations σ.server .accept τ) :
      Step locations σ (.server .accept) { σ with server := τ }
  | read {i : Nat} {data : Bytes} {τ : ServerState} {c : Client}
      (next : Steps.Step locations σ.server (.read i data) τ)
      (client : τ.clients[i]? = some c) :
      Step locations σ (.server (.read i data))
        (σ.update τ i { σ.wires i with requests := (σ.wires i).requests ++ c.pending })
  /-- `thread_work` starts the write of the response that `process_req` has just built. -/
  | work {i : Nat} {w : World} {τ : ServerState} {c : Client} {answers : List Answer} {a : Answer}
      (next : Steps.Step locations σ.server (.work i w) τ)
      (client : τ.clients[i]? = some c) (last : c.answers = answers ++ [a]) :
      Step locations σ (.server (.work i w))
        (σ.update τ i { σ.wires i with writing := (σ.wires i).writing ++ [responseBytes a] })
  /-- Any of the writes in flight sends a piece; it completes with its last piece. -/
  | send {i : Nat} {before after : List Bytes} {piece rest : Bytes}
      (here : (σ.wires i).writing = before ++ (piece ++ rest) :: after) (some : piece ≠ []) :
      Step locations σ (.send i)
        (σ.update σ.server i { σ.wires i with
          writing := before ++ (if rest = [] then after else rest :: after)
          sent := (σ.wires i).sent ++ piece })

/-- The states reached by steps that meet a condition. -/
inductive Reaches (locations : Locations) (B : State → Event → Prop) : State → Prop
  | start : Reaches locations B .started
  | step {σ τ : State} {e : Event} (before : Reaches locations B σ) (meets : B σ e)
      (next : Step locations σ e τ) : Reaches locations B τ

/-- A write is started only when the connection has none in flight. -/
def Sequential (σ : State) : Event → Prop
  | .server (.work i _) => (σ.wires i).writing = []
  | _ => True

/-- On every connection each request has one answer or waits for it, in request order, and the
bytes sent are a prefix of the complete responses in this order. -/
def InOrder (σ : State) : Prop :=
  ∀ i c, σ.server.clients[i]? = some c →
    (σ.wires i).requests = c.answers.map Answer.delivery ++ c.pending ∧
    (σ.wires i).sent <+: c.answers.flatMap responseBytes

/-- What keeps a connection in order: what is left of its writes is what is left of the
responses, and there is at most one write. -/
structure Settled (wire : Wire) (c : Client) : Prop where
  requests : wire.requests = c.answers.map Answer.delivery ++ c.pending
  rest : wire.sent ++ wire.writing.flatten = c.answers.flatMap responseBytes
  single : wire.writing.length ≤ 1
  unfinished : ∀ b ∈ wire.writing, b ≠ []

/-- The session of this number, as it will be when it connects. -/
def clientAt (σ : ServerState) (i : Nat) : Client := σ.clients[i]?.getD .connected

def AllSettled (σ : State) : Prop := ∀ i, Settled (σ.wires i) (clientAt σ.server i)

section Runs

variable {locations : Locations} {σ τ : State} {e : Event} {i : Nat} {wire : Wire}

theorem clientAt_eq {σ : ServerState} {i : Nat} {c : Client} (h : σ.clients[i]? = some c) :
    clientAt σ i = c := by
  rw [clientAt, h, Option.getD_some]

theorem clientAt_set_ne {clients : List Client} {cache cache' : Cache} {c : Client} {i j : Nat}
    (other : j ≠ i) :
    clientAt ⟨cache, clients.set i c⟩ j = clientAt ⟨cache', clients⟩ j := by
  rw [clientAt, clientAt, List.getElem?_set_ne other.symm]

theorem eq_of_getElem?_set {clients : List Client} {c c' d : Client} {i : Nat}
    (found : clients[i]? = some d) (h : (clients.set i c)[i]? = some c') : c' = c := by
  obtain ⟨bound, -⟩ := List.getElem?_eq_some_iff.mp found
  rw [List.getElem?_set_self bound] at h
  exact (Option.some.inj h).symm

theorem clientAt_concat {clients : List Client} {cache : Cache} (j : Nat) :
    clientAt ⟨cache, clients ++ [.connected]⟩ j = clientAt ⟨cache, clients⟩ j := by
  rw [clientAt, clientAt]
  by_cases hj : j < clients.length
  · rw [List.getElem?_append_left hj]
  · rw [List.getElem?_append_right (by omega),
      List.getElem?_eq_none (by omega : clients.length ≤ j)]
    cases j - clients.length with
    | zero => rfl
    | succ n => rfl

private theorem responseBytes_begin {a : Answer} {res : Response} {cache : Cache}
    (h : a.processed.result = .ok (res, cache)) : ∃ b, responseBytes a = 72 :: 84 :: b := by
  have version : lit "HTTP/1.1 " = 72 :: 84 :: lit "TP/1.1 " := by decide
  simp only [responseBytes, h, Response.build, Response.head, version, List.flatten_cons,
    List.append_assoc]
  exact ⟨_, rfl⟩

private theorem Step.work_cases {w : World} (step : Step locations σ (.server (.work i w)) τ) :
    ∃ (server : ServerState) (c c' : Client) (a : Answer),
      τ = σ.update server i
        { σ.wires i with writing := (σ.wires i).writing ++ [responseBytes a] } ∧
      σ.server.clients[i]? = some c ∧ server.clients[i]? = some c' ∧
      c.pending = a.delivery :: c'.pending ∧ c'.answers = c.answers ++ [a] ∧
      (∃ b, responseBytes a = 72 :: 84 :: b) ∧
      ∀ j, j ≠ i → clientAt server j = clientAt σ.server j := by
  cases step with
  | @work _ _ server c' answers a next client last =>
      cases next with
      | @work _ _ c d rest res cache found pending served =>
          obtain rfl := eq_of_getElem?_set found client
          obtain ⟨rfl, hlast⟩ := List.append_inj' last rfl
          obtain rfl := (List.cons.inj hlast).1
          exact ⟨_, c, _, _, rfl, found, client, pending, rfl, responseBytes_begin served,
            fun j hj => clientAt_set_ne hj⟩

private theorem AllSettled.inOrder (h : AllSettled σ) : InOrder σ := by
  intro i c client
  have settled := h i
  rw [clientAt_eq client] at settled
  refine ⟨settled.requests, ?_⟩
  rw [← settled.rest]
  exact List.prefix_append _ _

private theorem AllSettled.update (h : AllSettled σ) {server : ServerState}
    (same : ∀ j, j ≠ i → clientAt server j = clientAt σ.server j)
    (here : Settled wire (clientAt server i)) : AllSettled (σ.update server i wire) := by
  intro j
  by_cases hj : j = i
  · subst hj
    simpa [State.update] using here
  · have other := h j
    rw [← same j hj] at other
    simpa [State.update, hj] using other

private theorem AllSettled.step (h : AllSettled σ) (sequential : Sequential σ e)
    (step : Step locations σ e τ) : AllSettled τ := by
  cases step with
  | accept next =>
      cases next
      intro j
      have settled := h j
      rw [← clientAt_concat j] at settled
      exact settled
  | @read i data server c next client =>
      cases next with
      | @read _ _ c₀ out reports t found idle size received =>
          have settled := h i
          rw [clientAt_eq found] at settled
          obtain rfl := eq_of_getElem?_set found client
          refine h.update (fun j hj => clientAt_set_ne hj) ?_
          rw [clientAt_eq client]
          refine ⟨?_, settled.rest, settled.single, settled.unfinished⟩
          simp only [settled.requests, idle, List.append_nil]
  | @work i w server c answers a next client last =>
      obtain ⟨_, c, c', a, eq, found, found', pending, answered, ⟨b, begun⟩, same⟩ :=
        Step.work_cases (.work next client last)
      have settled := h i
      rw [clientAt_eq found] at settled
      have idle : (σ.wires i).writing = [] := sequential
      have whole := settled.rest
      rw [idle, List.flatten_nil, List.append_nil] at whole
      rw [eq]
      refine h.update same ?_
      rw [clientAt_eq found']
      refine ⟨?_, ?_, ?_, ?_⟩
      · simp [settled.requests, pending, answered]
      · simp [whole, idle, answered]
      · simp [idle]
      · simp [idle, begun]
  | @send i before after piece rest here some =>
      have settled := h i
      have single := settled.single
      have whole := settled.rest
      rw [here, List.length_append, List.length_cons] at single
      obtain rfl : before = [] := List.length_eq_zero_iff.mp (by omega)
      obtain rfl : after = [] := List.length_eq_zero_iff.mp (by omega)
      refine h.update (fun j _ => rfl) ?_
      by_cases last : rest = []
      · refine ⟨settled.requests, ?_, ?_, ?_⟩
        · simp [← whole, here, last]
        · simp [last]
        · simp [last]
      · refine ⟨settled.requests, ?_, ?_, ?_⟩
        · simp [← whole, here, last]
        · simp [last]
        · simp [last]

theorem Reaches.allSettled (h : Reaches locations Sequential σ) : AllSettled σ := by
  induction h with
  | start =>
      intro i
      exact ⟨rfl, rfl, by simp [State.started], by simp [State.started]⟩
  | step _ meets next ih => exact ih.step meets next

private theorem not_inOrder {c : Client} {s t u : Bytes} (client : σ.server.clients[i]? = some c)
    (sent : (σ.wires i).sent = s ++ t) (total : c.answers.flatMap responseBytes = s ++ u)
    (other : ¬ t <+: u) : ¬ InOrder σ := by
  intro inOrder
  have sound := (inOrder i c client).2
  rw [sent, total, List.prefix_append_right_inj] at sound
  exact other sound

private theorem step_send {before after : List Bytes} {piece rest : Bytes}
    (here : (σ.wires i).writing = before ++ (piece ++ rest) :: after) (some : piece ≠ [])
    (more : rest ≠ []) :
    Step locations σ (.send i) (σ.update σ.server i
      ⟨(σ.wires i).requests, before ++ rest :: after, (σ.wires i).sent ++ piece⟩) := by
  have step := @Step.send locations σ i before after piece rest here some
  rw [if_neg more] at step
  exact step

private theorem exists_mixed {c : Client} {r b : Bytes} (client : σ.server.clients[i]? = some c)
    (writing : (σ.wires i).writing = [r, 72 :: 84 :: b]) (unfinished : r ≠ [])
    (total : c.answers.flatMap responseBytes = (σ.wires i).sent ++ (r ++ 72 :: 84 :: b)) :
    ∃ τ, Relation.ReflTransGen (fun σ τ => Step locations σ (.send i) τ) σ τ ∧ ¬ InOrder τ := by
  by_cases begun : [72, 84] <+: r
  · -- the first letter of each of the two
    obtain ⟨r, rfl⟩ := begun
    have first : Step locations σ (.send i) _ :=
      @step_send locations σ i [] [72 :: 84 :: b] [72] (84 :: r) writing (by simp) (by simp)
    have second := @step_send locations (σ.update σ.server i
        ⟨(σ.wires i).requests, [84 :: r, 72 :: 84 :: b], (σ.wires i).sent ++ [72]⟩)
      i [84 :: r] [] [72] (84 :: b) (by simp [State.update]) (by simp) (by simp)
    refine ⟨_, (Relation.ReflTransGen.single first).tail second, ?_⟩
    refine not_inOrder client (t := [72, 72]) ?_ total ?_
    · simp [State.update]
    · simp [List.cons_prefix_cons]
  · have ahead := @Step.send locations σ i [r] [] [72, 84] b writing (by simp)
    refine ⟨_, .single ahead, ?_⟩
    refine not_inOrder client (t := [72, 84]) ?_ total ?_
    · simp [State.update]
    · intro next
      obtain ⟨x, r, rfl⟩ := List.exists_cons_of_ne_nil unfinished
      cases r with
      | nil => simp [List.cons_prefix_cons] at next
      | cons y r =>
          apply begun
          simpa [List.cons_prefix_cons] using next

private theorem reaches_write {B : State → Event → Prop} {w : World} {data : Bytes} {d : Delivery}
    {c : Client} {res : Response} {cache : Cache} (run : Reaches locations B σ)
    (client : σ.server.clients[i]? = some c) (fresh : c.parsing = .fresh) (idle : c.pending = [])
    (size : data.length ≤ 8192) (received : ReceivedReporting .fresh data [d] [d] .fresh)
    (served : (processReq locations w d.request σ.server.cache).result = .ok (res, cache))
    (reads : B σ (.server (.read i data)))
    (works : ∀ τ, (τ.wires i).writing = (σ.wires i).writing → B τ (.server (.work i w))) :
    ∃ τ c' a b, Reaches locations B τ ∧ τ.server.cache = cache ∧
      τ.server.clients[i]? = some c' ∧ c'.parsing = .fresh ∧ c'.pending = [] ∧
      c'.answers = c.answers ++ [a] ∧ responseBytes a = 72 :: 84 :: b ∧
      (τ.wires i).sent = (σ.wires i).sent ∧
      (τ.wires i).writing = (σ.wires i).writing ++ [72 :: 84 :: b] := by
  obtain ⟨parsing, pending, reported, answers⟩ := c
  obtain rfl : parsing = .fresh := fresh
  obtain ⟨bound, -⟩ := List.getElem?_eq_some_iff.mp client
  have found := List.getElem?_set_self (a := (⟨.fresh, [d], reported ++ [d], answers⟩ : Client))
    bound
  have read := run.step reads (.read (.read client idle size received) found)
  have answered := List.getElem?_set_self (a := (⟨.fresh, [], reported ++ [d], answers ++
      [⟨d, σ.server.cache, processReq locations w d.request σ.server.cache⟩]⟩ : Client))
    (List.getElem?_eq_some_iff.mp found).1
  have work := read.step (works _ (by simp [State.update]))
    (.work (.work found rfl served) answered rfl)
  obtain ⟨b, begun⟩ := @responseBytes_begin
    ⟨d, σ.server.cache, processReq locations w d.request σ.server.cache⟩ res cache served
  exact ⟨_, _, _, b, work, rfl, answered, rfl, rfl, rfl, begun, by simp [State.update],
    by simp [State.update, ← begun]⟩

end Runs

/-- In every run in which writes are started one at a time, responses are sent in order.  A write
that is started while another is in flight can be mixed with it. -/
theorem responses_in_order (locations : Locations) :
    (∀ σ, Reaches locations Sequential σ → InOrder σ) ∧
    ∀ σ i w τ, Reaches locations Sequential σ → Step locations σ (.server (.work i w)) τ →
      ¬ Sequential σ (.server (.work i w)) →
      ∃ υ, Relation.ReflTransGen (fun σ τ => Step locations σ (.send i) τ) τ υ ∧ ¬ InOrder υ := by
  refine ⟨fun σ run => run.allSettled.inOrder, ?_⟩
  intro σ i w τ run step overlap
  obtain ⟨server, c, c', a, rfl, found, found', -, answered, ⟨b, begun⟩, -⟩ := step.work_cases
  have settled := run.allSettled i
  rw [clientAt_eq found] at settled
  have whole := settled.rest
  obtain ⟨r, hr⟩ : ∃ r, (σ.wires i).writing = [r] := by
    apply List.length_eq_one_iff.mp
    have single := settled.single
    have some : (σ.wires i).writing.length ≠ 0 := fun none =>
      overlap (List.length_eq_zero_iff.mp none)
    omega
  refine exists_mixed (r := r) (b := b) found' ?_ (settled.unfinished r (by simp [hr])) ?_
  · simp [State.update, hr, begun]
  · rw [hr, List.flatten_singleton] at whole
    simp [State.update, answered, ← whole, begun]

def echoRequest : Delivery := ⟨.good, ⟨.GET, lit "/echo/", lit "HTTP/1.0", ∅, []⟩⟩

theorem received_echoRequest :
    ReceivedReporting .fresh (lit "GET /echo/ HTTP/1.0\r\n\r\n") [echoRequest] [echoRequest]
      .fresh :=
  ⟨1, rfl, rfl⟩

/-- One request, and the first letter of its response. -/
theorem responses_in_order_echo :
    ∃ σ, Reaches echoLocations Sequential σ ∧ InOrder σ ∧ (σ.wires 0).sent = lit "H" := by
  have accepted : Reaches echoLocations Sequential { State.started with
      server := ⟨∅, [.connected]⟩ } := .step (e := .server .accept) .start trivial (.accept .accept)
  obtain ⟨τ, c, a, b, run, -, -, -, -, -, -, sent, writing⟩ :=
    reaches_write (i := 0) (w := ⟨fun _ => none, []⟩) accepted rfl rfl rfl (by decide)
      received_echoRequest rfl trivial (fun τ idle => idle)
  have sends := run.step (e := .send 0) trivial
    (@step_send echoLocations τ 0 [] [] [72] (84 :: b) writing (by simp) (by simp))
  refine ⟨_, sends, (responses_in_order echoLocations).1 _ sends, ?_⟩
  simp only [State.update, Function.update_self, sent]
  decide

/-- A second request arrives before the first response is sent, and the two are mixed. -/
theorem responses_mixed :
    ∃ σ, Reaches echoLocations (fun _ _ => True) σ ∧ (σ.wires 0).sent = lit "HH" ∧ ¬ InOrder σ := by
  have accepted : Reaches echoLocations (fun _ _ => True) { State.started with
      server := ⟨∅, [.connected]⟩ } := .step .start trivial (.accept .accept)
  obtain ⟨τ, c, a, b, run, cache, client, fresh, idle, answers, begun, sent, writing⟩ :=
    reaches_write (i := 0) (w := ⟨fun _ => none, []⟩) accepted rfl rfl rfl (by decide)
      received_echoRequest rfl trivial (fun _ _ => trivial)
  obtain ⟨υ, c', a', b', run', -, client', -, -, answers', begun', sent', writing'⟩ :=
    reaches_write (i := 0) (w := ⟨fun _ => none, []⟩) run client fresh idle (by decide)
      received_echoRequest (by rw [cache]; rfl) trivial (fun _ _ => trivial)
  have both : (υ.wires 0).writing = [72 :: 84 :: b, 72 :: 84 :: b'] := by
    rw [writing', writing]
    rfl
  have first := run'.step trivial
    (@step_send echoLocations υ 0 [] [72 :: 84 :: b'] [72] (84 :: b) both (by simp) (by simp))
  have second := first.step trivial
    (@step_send echoLocations _ 0 [84 :: b] [] [72] (84 :: b') (by simp [State.update]) (by simp)
      (by simp))
  have none : (υ.wires 0).sent = [] := sent'.trans sent
  have total : c'.answers.flatMap responseBytes = [] ++ (72 :: 84 :: b ++ 72 :: 84 :: b') := by
    rw [answers', answers]
    simp [begun, begun', Client.connected]
  refine ⟨_, second, ?_, not_inOrder (t := [72, 72]) client' ?_ total ?_⟩
  · simp only [State.update, Function.update_self, none]
    decide
  · simp only [State.update, Function.update_self, none]
    rfl
  · simp [List.cons_prefix_cons]

end Wnza.Server.Writes
