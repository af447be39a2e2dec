/- GID: Wnza/Session/Termination
   generality: I
   source: src/session.cc
   digest: When the receive loop ends, and the reads on which it runs forever. -/

import Wnza.Session.Receive

set_option autoImplicit false
set_option relaxedAutoImplicit false

namespace Wnza.Session.Termination

open Wnza.Foundation.Feed
open Wnza.Foundation.DoWhile
open Wnza.Http.Text
open Wnza.Http.Parser
open Wnza.Http.Counter
open Wnza.Session.Receive

/-- The loop ends on these bytes, with no more requests than bytes. -/
def Terminates (s : Parsing) (data : Bytes) : Prop :=
  ∃ out e, Ends (receivePass data) s out e ∧ out.length ≤ data.length

/-- No byte makes the parser take over a negative content length. -/
def LengthsNonneg (s : Parsing) (w : Bytes) : Prop :=
  ∀ call ∈ calls machine s w, KeepsNonneg call.1 call.2

/-- What the loop can take in one read: no negative content length, and behind the first
verdict no other one that leaves bytes unread or ends a body. -/
structure Settled (s : Parsing) (data : Bytes) : Prop where
  lengths : LengthsNonneg s data
  lengths_behind : ∀ {v t rest}, feed machine s data = .done v t rest →
    LengthsNonneg .fresh (rest.drop t.parser.bodyLength.toNat)
  verdict_behind : ∀ {v t rest v' u rest'}, feed machine s data = .done v t rest →
    feed machine .fresh (rest.drop t.parser.bodyLength.toNat) = .done v' u rest' →
      (rest'.length : Int) ≤ u.parser.bodyLength ∧ u.parser.state ≠ .body

private theorem receivePass_of_settled {s : Parsing} {data : Bytes} (hs : Counting s)
    (h : Settled s data) :
    (∃ out t, receivePass data s = .exit out t ∧ Counting t ∧ out.length ≤ data.length) ∨
      ∃ out e, receivePass data s = .raise out e ∧ out.length ≤ data.length := by
  cases hf : feed machine s data with
  | more t =>
      have ht : Counting t := hs.feed_more h.lengths hf
      exact .inl ⟨[], t, receivePass_of_more hf ht.nonneg, ht, by simp⟩
  | fault e =>
      refine .inr ⟨[], e, ?_, by simp⟩
      rw [receivePass_eq, hf]
  | done v t rest =>
      have nonneg : 0 ≤ t.parser.bodyLength := hs.feed_done h.lengths hf
      by_cases hle : t.parser.bodyLength ≤ rest.length
      · have one : [(⟨v, t.setMethod.request⟩ : Delivery)].length ≤ data.length := by
          obtain ⟨as, b, -, rfl, -⟩ := feed_done_iff.mp hf
          simp only [List.length_append, List.length_cons, List.length_nil]
          omega
        rw [receivePass_of_done hf nonneg hle]
        cases hg : feed machine .fresh (rest.drop t.parser.bodyLength.toNat) with
        | more u =>
            have hu : Counting u := Counting.fresh.feed_more (h.lengths_behind hf) hg
            have stay : ¬ u.parser.bodyLength < 0 := not_lt.mpr hu.nonneg
            exact .inl ⟨_, u, by simp only [settle, if_neg stay], hu, one⟩
        | fault e => exact .inr ⟨_, e, rfl, one⟩
        | done v' u rest' =>
            obtain ⟨read, head⟩ := h.verdict_behind hf hg
            have nonneg' : 0 ≤ u.parser.bodyLength :=
              Counting.fresh.feed_done (h.lengths_behind hf) hg
            have stay : ¬ u.parser.bodyLength < rest'.length := not_lt.mpr read
            exact .inl ⟨_, u.setMethod, by simp only [settle, if_neg stay],
              ⟨nonneg', fun hbody => absurd hbody head⟩, one⟩
      · have withheld : (rest.length : Int) < t.parser.bodyLength := not_le.mp hle
        refine .inl ⟨[], t.setMethod, receivePass_of_withheld hf withheld, ⟨nonneg, fun _ => ?_⟩,
          by simp⟩
        have positive : (0 : Int) ≤ rest.length := Int.natCast_nonneg _
        exact lt_of_le_of_lt positive withheld

private theorem counting_received {s t : Parsing} {data : Bytes} {out : List Delivery}
    (hs : Counting s) (h : Settled s data) (received : Received s data out t) : Counting t := by
  obtain ⟨out', t', hexit, ht, -⟩ | ⟨out', e, hraise, -⟩ := receivePass_of_settled hs h
  · obtain ⟨-, hstate⟩ := received.unique (ends_of_exit hexit)
    injection hstate with hstate
    rwa [hstate]
  · obtain ⟨-, hstate⟩ := received.unique (ends_of_raise hraise)
    cases hstate

/-- In every session whose reads are settled the receive loop ends on each of them. -/
theorem receive_loop_terminates (reads : List Bytes) (settled : EachRead Settled reads) :
    EachRead Terminates reads := by
  have counting := EachRead.invariant (P := Counting) Counting.fresh
    (fun _ _ _ _ hs h received => counting_received hs h received) settled
  intro before data after outs s split runs
  obtain ⟨hs, h⟩ := counting before data after outs s split runs
  obtain ⟨out, t, hexit, -, hlen⟩ | ⟨out, e, hraise, hlen⟩ := receivePass_of_settled hs h
  · exact ⟨out, _, ends_of_exit hexit, hlen⟩
  · exact ⟨out, _, ends_of_raise hraise, hlen⟩

theorem receive_loop_terminates_post :
    Settled .fresh (lit "POST / HTTP/1.0\r\nContent-Length: 2\r\n\r\nokGE") ∧
      EachRead Terminates [lit "POST / HTTP/1.0\r\nContent-Length: 2\r\n\r\nokGE"] := by
  have first : ∃ t, feed machine .fresh
      (lit "POST / HTTP/1.0\r\nContent-Length: 2\r\n\r\nokGE") = .done .good t (lit "GE") ∧
        t.parser.bodyLength.toNat = 0 :=
    ⟨_, rfl, rfl⟩
  have second : ∃ u, feed machine .fresh (lit "GE") = .more u := ⟨_, rfl⟩
  obtain ⟨t₀, first, zero⟩ := first
  obtain ⟨u₀, second⟩ := second
  have settled : Settled .fresh (lit "POST / HTTP/1.0\r\nContent-Length: 2\r\n\r\nokGE") := by
    refine ⟨by unfold LengthsNonneg; decide, ?_, ?_⟩
    · intro v t rest h
      obtain ⟨-, rfl, rfl⟩ := Outcome.done.inj (first.symm.trans h)
      rw [zero]
      unfold LengthsNonneg
      decide
    · intro v t rest v' u rest' h h'
      obtain ⟨-, rfl, rfl⟩ := Outcome.done.inj (first.symm.trans h)
      rw [zero, List.drop_zero, second] at h'
      cases h'
  exact ⟨settled, receive_loop_terminates _ (eachRead_singleton.mpr settled)⟩

/-- Three requests in one read: the second pass takes the first byte of the read for the end
of the second request, and from then on every pass reads the same bytes again. -/
theorem pipelined_requests_never_end :
    (lit "GET / HTTP/1.0\r\n\r\nGET / HTTP/1.0\r\n\r\nGET / HTTP/1.0\r\n\r\n").length ≤ 8192 ∧
      ¬ EachRead Terminates
        [lit "GET / HTTP/1.0\r\n\r\nGET / HTTP/1.0\r\n\r\nGET / HTTP/1.0\r\n\r\n"] := by
  refine ⟨by decide, ?_⟩
  rw [eachRead_singleton]
  rintro ⟨out, e, ends, -⟩
  let s₁ : Parsing := ⟨⟨.GET, lit "/", lit "HTTP/1.0", ∅, []⟩,
    ⟨.expectingNewline3, [], [], lit "GET", 0⟩⟩
  let s₂ : Parsing := ⟨⟨.INVALID, lit "/", lit "HTTP/1.0", ∅, []⟩,
    ⟨.expectingNewline3, [], [], lit "ET", 0⟩⟩
  refine not_ends_of_again (P := fun s => s = .fresh ∨ s = s₁ ∨ s = s₂) ?_ (.inl rfl) out e ends
  rintro s (rfl | rfl | rfl)
  · exact ⟨[⟨.good, s₁.request⟩], s₁, rfl, .inr (.inl rfl)⟩
  · exact ⟨[⟨.bad, s₁.request⟩], s₂, rfl, .inr (.inr rfl)⟩
  · exact ⟨[⟨.bad, s₂.request⟩], s₂, rfl, .inr (.inr rfl)⟩

end Wnza.Session.Termination
