/- GID: Wnza/Session/Deliveries
   generality: I
   source: src/session.cc (received_req), src/request_parser.cc
   digest: What holds of every request that a session takes from its reads. -/

import Wnza.Http.Reach
import Wnza.Session.Receive

set_option autoImplicit false
set_option relaxedAutoImplicit false

namespace Wnza.Session.Deliveries

open Wnza.Foundation.DoWhile
open Wnza.Foundation.Feed
open Wnza.Http.Text
open Wnza.Http.Parser
open Wnza.Http.Grammar
open Wnza.Http.Reach
open Wnza.Session.Receive

/-- The URI and the header lines have passed the character classes of the parser. -/
structure Plain (req : Request) : Prop where
  uri : IsUri req.uri
  headers : HeaderLines req.headers.toList

/-- Some session takes the request from some reads, whatever the verdict on it. -/
def Delivered (req : Request) : Prop :=
  ∃ reads outs t, Runs .fresh reads outs t ∧ ∃ out ∈ outs, ∃ d ∈ out, d.request = req

section Runs

variable {s t : Parsing} {data : Bytes} {out : List Delivery}

private theorem leave_keeps {P : Parsing → Prop} {Q : Delivery → Prop} {r : ParseResult}
    (kept : P r.parsing) (emitted : ∀ d ∈ out, Q d) : (leave data out r).Keeps P Q := by
  unfold leave
  split
  · exact ⟨kept, emitted⟩
  · exact ⟨kept, emitted⟩

private theorem receivePass_keeps {P : Parsing → Prop} {Q : Request → Prop} (start : P .fresh)
    (step : ∀ s begin w r, P s → parse s begin w = .ok r → P r.parsing)
    (taken : ∀ s, P s → Q s.request) (h : P s) :
    (receivePass data s).Keeps P (fun d => Q d.request) := by
  unfold receivePass
  cases parsed : parse s 0 data with
  | error e => exact List.forall_mem_nil _
  | ok r =>
      have kept := step s 0 data r h parsed
      have emitted : ∀ d ∈ [(⟨r.result, r.parsing.request⟩ : Delivery)], Q d.request :=
        List.forall_mem_singleton.mpr (taken _ kept)
      by_cases hr : r.result = .indeterminate
      · simp only [if_pos hr]
        exact leave_keeps kept (List.forall_mem_nil _)
      · simp only [if_neg hr]
        by_cases hnext : r.begin + r.bodyLength < 0
        · simp only [if_pos hnext]
          exact emitted
        · simp only [if_neg hnext]
          cases again : parse .fresh (r.begin + r.bodyLength).toNat
              (data.drop (r.begin + r.bodyLength).toNat) with
          | error e => exact emitted
          | ok r' => exact leave_keeps (step _ _ _ _ start again) emitted

private theorem runs_keep {P : Parsing → Prop} {Q : Request → Prop} (start : P .fresh)
    (step : ∀ s begin w r, P s → parse s begin w = .ok r → P r.parsing)
    (taken : ∀ s, P s → Q s.request) {reads : List Bytes} {outs : List (List Delivery)}
    (runs : Runs s reads outs t) (h : P s) : P t ∧ ∀ out ∈ outs, ∀ d ∈ out, Q d.request := by
  induction runs with
  | nil s => exact ⟨h, List.forall_mem_nil _⟩
  | cons first rest ih =>
      obtain ⟨kept, emitted⟩ :=
        first.invariant (fun s hs => receivePass_keeps start step taken hs) h
      obtain ⟨last, others⟩ := ih kept
      exact ⟨last, List.forall_mem_cons.mpr ⟨emitted, others⟩⟩

end Runs

private theorem Delivered.reachable {req : Request} (h : Delivered req) :
    ∃ s, Reachable s ∧ s.request = req := by
  obtain ⟨reads, outs, t, runs, out, hout, d, hd, rfl⟩ := h
  obtain ⟨-, emitted⟩ := runs_keep (Q := fun req => ∃ s, Reachable s ∧ s.request = req)
    (P := Reachable) .start (fun s _ w r hs parsed => hs.parse (fun _ _ => trivial) parsed)
    (fun s hs => ⟨s, hs, rfl⟩) runs .start
  exact emitted out hout d hd

theorem Delivered.plain {req : Request} (h : Delivered req) : Plain req := by
  obtain ⟨s, reachable, rfl⟩ := h.reachable
  exact ⟨reachable.collected.1.uri, reachable.collected.1.headers⟩

end Wnza.Session.Deliveries
