/- GID: Wnza/Server/Streams
   generality: I
   source: src/session.cc, src/connection.cc
   digest: What a client that streams its requests is sent, from its bytes to the bytes it gets. -/

import Wnza.Server.Linearization
import Wnza.Session.Framing

set_option autoImplicit false
set_option relaxedAutoImplicit false

namespace Wnza.Server.Streams

open Wnza.Foundation.Feed
open Wnza.Foundation.DoWhile
open Wnza.Http.Text
open Wnza.Http.Parser (Parsing machine)
open Wnza.Http.Grammar
open Wnza.Handler.Basic
open Wnza.Session.Dispatch
open Wnza.Session.Receive
open Wnza.Session.Framing
open Wnza.Server.Steps (ServerState Client Answer)
open Wnza.Server.Writes
open Wnza.Server.Linearization

/-- A run with the list of its events, each of which meets a condition. -/
inductive Trace (locations : Locations) (B : State → Event → Prop) : List Event → State → Prop
  | start : Trace locations B [] .started
  | step {events : List Event} {σ τ : State} {e : Event} (before : Trace locations B events σ)
      (meets : B σ e) (next : Step locations σ e τ) : Trace locations B (events ++ [e]) τ

def readOn (i : Nat) : Event → Option Bytes
  | .server (.read j data) => if j = i then some data else none
  | _ => none

def readsOn (i : Nat) (events : List Event) : List Bytes := events.filterMap (readOn i)

section Prefixes

variable {ms : List Message} {reads before after : List Bytes} {pos start : Nat} {s t u : Parsing}
  {outs : List (List Delivery)}

theorem runs_concat {data : Bytes} {out : List Delivery} (h : Runs s reads outs t)
    (last : Received t data out u) : Runs s (reads ++ [data]) (outs ++ [out]) u := by
  induction h with
  | nil s => exact .cons last (.nil u)
  | cons first rest ih => exact .cons first (ih last)

private theorem runs_append_inv (h : Runs s (before ++ after) outs u) :
    ∃ outs₁ outs₂ t, outs = outs₁ ++ outs₂ ∧ outs₁.length = before.length ∧
      Runs s before outs₁ t := by
  induction before generalizing s outs with
  | nil => exact ⟨[], outs, s, rfl, rfl, .nil s⟩
  | cons data before ih =>
      cases h with
      | cons first rest =>
          obtain ⟨outs₁, outs₂, t, rfl, length, runs⟩ := ih rest
          exact ⟨_ :: outs₁, outs₂, t, rfl, by simp [length], .cons first runs⟩

private theorem schedule_length : (schedule pos ms start reads).length = reads.length := by
  induction reads generalizing start with
  | nil => rfl
  | cons data reads ih => simp only [schedule, List.length_cons, ih]

private theorem schedule_append :
    schedule pos ms start (before ++ after) = schedule pos ms start before ++
      schedule pos ms (start + before.flatten.length) after := by
  induction before generalizing start with
  | nil => simp [schedule]
  | cons data before ih =>
      simp only [List.cons_append, schedule, ih, List.flatten_cons, List.length_append,
        Nat.add_assoc]

private theorem endingIn_byte : (endingIn start (start + 1) pos ms).length ≤ 1 := by
  induction ms generalizing pos with
  | nil => simp [endingIn]
  | cons m ms ih =>
      rw [endingIn]
      by_cases ends : start < pos + m.encode.length ∧ pos + m.encode.length ≤ start + 1
      · have none : endingIn start (start + 1) (pos + m.encode.length) ms = [] :=
          endingIn_of_le (by omega)
        simp [ends, none]
      · simp only [if_neg ends]
        exact ih

private theorem schedule_bytes (w : Bytes) :
    ∀ batch ∈ schedule pos ms start (w.map (fun b => [b])), batch.length ≤ 1 := by
  induction w generalizing start with
  | nil => simp [schedule]
  | cons b w ih =>
      intro batch hbatch
      rw [List.map_cons, schedule, List.mem_cons] at hbatch
      rcases hbatch with rfl | hbatch
      · exact endingIn_byte
      · exact ih batch hbatch

theorem runs_of_prefix {rest : Bytes} (single : ∀ m ∈ ms, SingleLength m)
    (nonempty : ∀ data ∈ reads, data ≠ []) (cut : reads.flatten ++ rest = wire ms)
    (spread : ∀ batch ∈ schedule 0 ms 0 reads, batch.length ≤ 1) :
    ∃ t, Runs .fresh reads ((schedule 0 ms 0 reads).map (List.map delivered)) t := by
  -- the rest of the stream could arrive byte by byte
  have bytes : (rest.map (fun b => [b])).flatten = rest := by
    rw [← List.flatMap_def, List.flatMap_singleton']
  have whole : Midway ms (reads ++ rest.map (fun b => [b])) 0 0 [] .fresh := by
    refine ⟨?_, rfl, fun m _ => encode_length_pos m, rfl⟩
    rw [List.flatten_append, bytes, List.nil_append, cut]
  have runs := whole.runs single ?_ ?_
  · obtain ⟨outs₁, outs₂, t, split, length, runs⟩ := runs_append_inv runs
    rw [schedule_append, List.map_append] at split
    obtain ⟨rfl, -⟩ := List.append_inj split.symm (by simp [length, schedule_length])
    exact ⟨t, runs⟩
  · intro data hdata
    rcases List.mem_append.mp hdata with hdata | hdata
    · exact nonempty data hdata
    · obtain ⟨b, -, rfl⟩ := List.mem_map.mp hdata
      simp
  · intro batch hbatch
    rw [schedule_append] at hbatch
    rcases List.mem_append.mp hbatch with hbatch | hbatch
    · exact spread batch hbatch
    · exact schedule_bytes rest batch hbatch

end Prefixes

section Runs

variable {locations : Locations} {B : State → Event → Prop} {events : List Event} {σ τ : State}

private theorem Trace.reaches (h : Trace locations B events σ) : Reaches locations B σ := by
  induction h with
  | start => exact .start
  | step _ meets next ih => exact ih.step meets next

private theorem reaches_server (h : Reaches locations B σ) :
    Steps.Reaches locations (fun _ _ => True) σ.server := by
  induction h with
  | start => exact .start
  | step _ _ next ih =>
      cases next with
      | accept next => exact ih.step trivial next
      | read next _ => exact ih.step trivial next
      | work next _ _ => exact ih.step trivial next
      | send _ _ => exact ih

private theorem readsOn_concat (i : Nat) (e : Event) :
    readsOn i (events ++ [e]) = readsOn i events ++ (readOn i e).toList := by
  cases h : readOn i e with
  | none => simp [readsOn, h]
  | some data => simp [readsOn, h]

def passedOn (c : Client) : List Delivery := c.answers.map Answer.delivery ++ c.pending

private theorem Trace.runs (h : Trace locations B events σ) (i : Nat) :
    ∃ outs, Runs .fresh (readsOn i events) outs (clientAt σ.server i).parsing ∧
      outs.flatten = passedOn (clientAt σ.server i) := by
  induction h with
  | start => exact ⟨[], .nil _, rfl⟩
  | @step events σ τ e before meets next ih =>
      obtain ⟨outs, runs, passed⟩ := ih
      rw [readsOn_concat]
      -- a step on another connection, or one that neither reads nor answers
      have unchanged : ∀ ρ : ServerState, readOn i e = none → clientAt ρ i = clientAt σ.server i →
          ∃ outs, Runs .fresh (readsOn i events ++ (readOn i e).toList) outs
            (clientAt ρ i).parsing ∧ outs.flatten = passedOn (clientAt ρ i) := by
        intro ρ none same
        rw [none, same, Option.toList_none, List.append_nil]
        exact ⟨outs, runs, passed⟩
      cases next with
      | accept next =>
          cases next
          exact unchanged _ rfl (clientAt_concat i)
      | @read j data server c next client =>
          cases next with
          | @read _ _ d out reports t found idle size received =>
              by_cases hj : i = j
              · subst hj
                obtain rfl := eq_of_getElem?_set found client
                obtain ⟨n, ends, -⟩ := received
                rw [clientAt_eq found] at runs passed
                simp only [State.update, clientAt_eq client]
                refine ⟨outs ++ [out], ?_, ?_⟩
                · simpa [readOn] using runs_concat runs ⟨n, ends⟩
                · simp [passed, passedOn, idle]
              · exact unchanged _ (if_neg (Ne.symm hj)) (clientAt_set_ne hj)
      | @work j w server c answers a next client last =>
          cases next with
          | @work _ _ d delivery rest res cache found pending served =>
              by_cases hj : i = j
              · subst hj
                obtain rfl := eq_of_getElem?_set found client
                rw [clientAt_eq found] at runs passed
                simp only [State.update, clientAt_eq client]
                refine ⟨outs, ?_, ?_⟩
                · simpa [readOn] using runs
                · simp [passed, passedOn, pending]
              · exact unchanged _ rfl (clientAt_set_ne hj)
      | send _ _ => exact unchanged _ rfl rfl

end Runs

def responsesOf (history : List Served) (i : Nat) : Bytes :=
  (history.filter (fun s => s.client = i)).flatMap (fun s => s.response.build.flatten)

/-- What a client that streams requests has got: the requests that have arrived completely were
passed on, in order, and it is sent the responses to those of them that have been answered, in
order.  `history` holds these and the requests of all other clients. -/
structure Streamed (ms : List Message) (bytes : Nat) (history : List Served) (i : Nat)
    (wire : Wire) (c : Client) : Prop where
  requests : (history.filter (fun s => s.client = i)).map Served.delivery ++ c.pending =
    (endingIn 0 bytes 0 ms).map delivered
  responses : wire.sent ++ wire.writing.flatten = responsesOf history i

private theorem responseBytes_eq (a : Answer) :
    responseBytes a = ((seen a).2.map (fun res => res.build.flatten)).getD [] := by
  rw [responseBytes, seen]
  cases a.processed.result with
  | error e => rfl
  | ok p => rfl

section Linearized

variable {locations : Locations} {σ : ServerState} {history : List Served} {i : Nat}

private theorem deliveries_eq (h : Linearized locations σ history) :
    (clientAt σ i).answers.map Answer.delivery =
      (history.filter (fun s => s.client = i)).map Served.delivery := by
  have seen := congrArg (List.map Prod.fst) (h.seen i)
  rw [seenBy, List.map_map, List.map_map] at seen
  exact seen

private theorem responses_eq (h : Linearized locations σ history) :
    (clientAt σ i).answers.flatMap responseBytes = responsesOf history i := by
  have seen := congrArg
    (List.flatMap (fun p => (p.2.map (fun res => res.build.flatten)).getD [])) (h.seen i)
  rw [seenBy, List.flatMap_map, List.flatMap_map] at seen
  simp only [funext responseBytes_eq]
  exact seen

end Linearized

/-- From the bytes of a client to the bytes it gets, on a server that it shares with others and that
starts one write at a time: however its stream is cut into reads with one request ending in each,
and however far it has been read. -/
theorem stream_answered_in_order (locations : Locations) (events : List Event) (σ : State)
    (run : Trace locations Sequential events σ) (i : Nat) (ms : List Message)
    (single : ∀ m ∈ ms, SingleLength m) (nonempty : ∀ data ∈ readsOn i events, data ≠ [])
    (cut : (readsOn i events).flatten <+: wire ms)
    (spread : ∀ batch ∈ schedule 0 ms 0 (readsOn i events), batch.length ≤ 1) :
    ∃ history, Linearized locations σ.server history ∧
      Streamed ms (readsOn i events).flatten.length history i (σ.wires i)
        (clientAt σ.server i) := by
  obtain ⟨history, linearized⟩ := exists_linearized (reaches_server run.reaches)
  have settled := run.reaches.allSettled i
  refine ⟨history, linearized, ?_, ?_⟩
  · obtain ⟨rest, cut⟩ := cut
    obtain ⟨outs, runs, passed⟩ := run.runs i
    obtain ⟨t, framed⟩ := runs_of_prefix single nonempty cut spread
    rw [(runs.unique framed).1, ← List.map_flatten, flatten_schedule_eq, Nat.zero_add] at passed
    rw [passed, passedOn, deliveries_eq linearized]
  · rw [settled.rest, responses_eq linearized]

/-- One request of a stream of two has arrived and is answered. -/
theorem stream_answered_in_order_root :
    ∃ σ history, Trace echoLocations Sequential [.server .accept,
        .server (.read 0 (lit "GET / HTTP/1.0\r\n\r\n")), .server (.work 0 ⟨fun _ => none, []⟩)] σ ∧
      (clientAt σ.server 0).answers.length = 1 ∧ Linearized echoLocations σ.server history ∧
      Streamed [rootRequest, rootRequest] 18 history 0 (σ.wires 0) (clientAt σ.server 0) := by
  have received : ReceivedReporting .fresh (lit "GET / HTTP/1.0\r\n\r\n") [delivered rootRequest]
      [delivered rootRequest] .fresh :=
    ⟨1, rfl, rfl⟩
  have accepted : Trace echoLocations Sequential ([] ++ [.server .accept])
      ⟨⟨∅, [.connected]⟩, fun _ => ⟨[], [], []⟩⟩ :=
    .step .start trivial (.accept .accept)
  have read := accepted.step (e := .server (.read 0 (lit "GET / HTTP/1.0\r\n\r\n"))) trivial
    (.read (.read (c := .connected) rfl rfl (by decide) received) rfl)
  have work := read.step (e := .server (.work 0 ⟨fun _ => none, []⟩)) rfl
    (.work (.work (w := ⟨fun _ => none, []⟩) rfl rfl rfl) rfl rfl)
  obtain ⟨history, linearized, streamed⟩ := stream_answered_in_order echoLocations _ _ work 0
    [rootRequest, rootRequest] (by simp [SingleLength, rootRequest]) (by decide) (by decide)
    (by decide)
  exact ⟨_, history, work, rfl, linearized, streamed⟩

end Wnza.Server.Streams
