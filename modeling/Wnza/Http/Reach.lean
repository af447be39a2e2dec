/- GID: Wnza/Http/Reach
   generality: I
   source: src/request_parser.cc
   digest: The states that any bytes lead the parser to, and where a call of parse leaves off. -/

import Wnza.Http.Counter
import Wnza.Http.Invariant
import Wnza.Http.Recognition

set_option autoImplicit false
set_option relaxedAutoImplicit false

namespace Wnza.Http.Reach

open Wnza.Foundation.Feed
open Wnza.Http.Text
open Wnza.Http.Parser
open Wnza.Http.Grammar
open Wnza.Http.Moves
open Wnza.Http.Invariant
open Wnza.Http.Counter
open Wnza.Http.Recognition

/-- The states that bytes lead to, whatever the verdicts on them, if each byte meets a condition
on the state that it finds.  `parse` writes the method after a verdict; a `reset` together with an
empty request starts again. -/
inductive Reaches (C : Parsing → UInt8 → Prop) : Parsing → Prop
  | start : Reaches C .fresh
  | byte {s t : Parsing} {c : UInt8} {v : ResultType} (before : Reaches C s) (meets : C s c)
      (consumed : consume s c = .ok (v, t)) : Reaches C t
  | method {s : Parsing} (before : Reaches C s) : Reaches C s.setMethod

/-- The states that any bytes lead to. -/
abbrev Reachable : Parsing → Prop := Reaches (fun _ _ => True)

namespace Reaches

variable {C : Parsing → UInt8 → Prop} {s t : Parsing}

private theorem invariant {P : Parsing → Prop} (start : P .fresh)
    (byte : ∀ s c v t, P s → C s c → consume s c = .ok (v, t) → P t)
    (method : ∀ s, P s → P s.setMethod) (h : Reaches C s) : P s := by
  induction h with
  | start => exact start
  | byte before meets consumed ih => exact byte _ _ _ _ ih meets consumed
  | method before ih => exact method _ ih

private theorem feed_more {w : Bytes} (h : Reaches C s)
    (meets : ∀ call ∈ calls machine s w, C call.1 call.2) (hw : feed machine s w = .more t) :
    Reaches C t :=
  feed_more_of_calls h
    (fun u b _ called hu hb => hu.byte (meets (u, b) called) (machine_next_iff.mp hb)) hw

private theorem feed_done {w rest : Bytes} {v : ResultType} (h : Reaches C s)
    (meets : ∀ call ∈ calls machine s w, C call.1 call.2)
    (hw : feed machine s w = .done v t rest) : Reaches C t := by
  obtain ⟨as, b, u, rfl, ha, hb⟩ := feed_done_iff.mp hw
  have last : (u, b) ∈ calls machine s (as ++ b :: rest) := mem_calls_iff.mpr ⟨as, rest, rfl, ha⟩
  have hu : Reaches C u := by
    apply h.feed_more _ ha
    rintro ⟨x, d⟩ called
    obtain ⟨p, q, rfl, hp⟩ := mem_calls_iff.mp called
    exact meets (x, d) (mem_calls_iff.mpr ⟨p, q ++ b :: rest, by simp, hp⟩)
  exact hu.byte (meets (u, b) last) (machine_stop_iff.mp hb).1

theorem parse {begin : Nat} {w : Bytes} {r : ParseResult} (h : Reaches C s)
    (meets : ∀ call ∈ calls machine s w, C call.1 call.2)
    (parsed : Parser.parse s begin w = .ok r) : Reaches C r.parsing := by
  cases hf : feed machine s w with
  | more t =>
      rw [parse_of_more hf] at parsed
      obtain rfl := Except.ok.inj parsed
      exact h.feed_more meets hf
  | done v t rest =>
      rw [parse_of_done hf] at parsed
      obtain rfl := Except.ok.inj parsed
      exact (h.feed_done meets hf).method
  | fault e =>
      rw [parse_of_fault hf] at parsed
      cases parsed

end Reaches

/-- What has been read of the protocol version: nothing before its states, all of it behind
them, and the part of it that belongs to the state in between. -/
def VersionAt (v : Bytes) : State → Prop
  | .methodStart | .method | .uri => v = []
  | .expectingNewline1 | .headerLineStart | .headerLws | .headerName | .spaceBeforeHeaderValue
  | .headerValue | .expectingNewline2 | .expectingNewline3 | .body =>
      ∃ a b, IsDigits a ∧ IsDigits b ∧ v = versionText a b
  | st => VersionPrefix v st

private theorem versionAt_edge {v : Bytes} {st st' : State} {c : UInt8} (edge : Edge st c st')
    (h : VersionAt v st) : VersionAt v st' := by
  cases edge with
  | uriEnd =>
      obtain rfl : v = [] := h
      exact .h
  | versionEnd =>
      cases h with
      | minor ha hb => exact ⟨_, _, ha, hb, rfl⟩
  | _ => exact h

private theorem versionAt_versionEdge {v : Bytes} {st st' : State} {c : UInt8}
    (edge : VersionEdge st c st') (h : VersionAt v st) : VersionAt (v ++ [c]) st' := by
  cases edge with
  | majorStart hc =>
      cases h with
      | majorStart => exact .major (.singleton hc)
  | major hc =>
      cases h with
      | major ha =>
          rw [List.append_assoc]
          exact .major (ha.concat hc)
  | dot =>
      cases h with
      | major ha => exact .minorStart ha
  | minorStart hc =>
      cases h with
      | minorStart ha =>
          rw [List.append_assoc]
          exact .minor ha (.singleton hc)
  | @minor c hc =>
      cases h with
      | @minor a b ha hb =>
          have grown : versionText a b ++ [c] = versionText a (b ++ [c]) := by simp [versionText]
          rw [grown]
          exact .minor ha (hb.concat hc)
  | _ =>
      cases h
      constructor

private theorem VersionAt.isPrefix {v : Bytes} {st : State} (h : VersionAt v st) :
    ∃ a b, IsDigits a ∧ IsDigits b ∧ v <+: versionText a b := by
  have digit : IsDigits (lit "1") := by decide
  have empty : [] <+: versionText (lit "1") (lit "1") := List.nil_prefix
  have opened : ∀ {v : Bytes} {st : State}, VersionPrefix v st →
      ∃ a b, IsDigits a ∧ IsDigits b ∧ v <+: versionText a b := by
    intro v st opened
    cases opened with
    | @major a ha => exact ⟨a, lit "1", ha, digit, List.prefix_append _ _⟩
    | @minorStart a ha => exact ⟨a, lit "1", ha, digit, ⟨lit "1", by simp [versionText]⟩⟩
    | minor ha hb => exact ⟨_, _, ha, hb, List.prefix_refl _⟩
    | _ => exact ⟨lit "1", lit "1", digit, digit, by decide⟩
  cases st with
  | methodStart | method | uri =>
      obtain rfl : v = [] := h
      exact ⟨_, _, digit, digit, empty⟩
  | expectingNewline1 | headerLineStart | headerLws | headerName | spaceBeforeHeaderValue
  | headerValue | expectingNewline2 | expectingNewline3 | body =>
      obtain ⟨a, b, ha, hb, rfl⟩ := h
      exact ⟨a, b, ha, hb, List.prefix_refl _⟩
  | _ => exact opened h

def Versioned (s : Parsing) : Prop := VersionAt s.request.version s.parser.state

private theorem commitEnd_version {s u r : Parsing} (commit : s.commitHeader = .ok u)
    (hr : r = u ∨ r = u.clearHeader) :
    r.request.version = s.request.version ∧ r.parser.state = s.parser.state := by
  have committed : u.request.version = s.request.version ∧ u.parser.state = s.parser.state := by
    obtain ⟨-, rfl⟩ | ⟨-, n, rfl, -⟩ := Parsing.commitHeader_inv commit
    · exact ⟨rfl, rfl⟩
    · exact ⟨rfl, rfl⟩
  rcases hr with rfl | rfl
  · exact committed
  · exact committed

private theorem Versioned.ofEnd {s u r : Parsing} (h : Versioned s)
    (commit : s.commitHeader = .ok u) (hr : r = u ∨ r = u.clearHeader) : Versioned r := by
  obtain ⟨version, state⟩ := commitEnd_version commit hr
  rw [Versioned, version, state]
  exact h

private theorem Versioned.move {s t : Parsing} {c : UInt8} {v : ResultType} (h : Versioned s)
    (hm : Move s c v t) : Versioned t := by
  cases hm with
  | reject _ => exact h
  | goto edge => exact versionAt_edge edge h
  | skip _ => exact h
  | method hs _ =>
      rcases hs with hs | hs
      · rw [Versioned, hs] at h
        exact h
      · rw [Versioned, hs] at h
        exact h
  | uri _ _ _ => exact h
  | version edge => exact versionAt_versionEdge edge h
  | @newKey u hs _ commit =>
      rw [Versioned, hs] at h
      obtain ⟨version, -⟩ := commitEnd_version commit (.inl rfl)
      change VersionAt u.request.version .headerName
      rw [version]
      exact h
  | key _ _ => exact h
  | val hs _ =>
      rcases hs with hs | hs
      · rw [Versioned, hs] at h
        exact h
      · rw [Versioned, hs] at h
        exact h
  | headEnd _ commit hr _ _ => exact h.ofEnd commit hr
  | @bodyStart u r hs commit hr _ _ =>
      rw [Versioned, hs] at h
      obtain ⟨version, -⟩ := commitEnd_version commit hr
      change VersionAt r.request.version .body
      rw [version]
      exact h
  | badEnd _ commit hr _ => exact h.ofEnd commit hr
  | body _ _ => exact h
  | bodyEnd _ _ => exact h

theorem Reaches.collected {C : Parsing → UInt8 → Prop} {s : Parsing} (h : Reaches C s) :
    Clean s ∧ Versioned s := by
  refine Reaches.invariant (P := fun s => Clean s ∧ Versioned s) ⟨.fresh, rfl⟩ ?_ ?_ h
  · intro s c v t hs _ consumed
    have moved := consume_move consumed
    exact ⟨hs.1.move moved, hs.2.move moved⟩
  · intro s hs
    exact ⟨hs.1.setMethod, hs.2⟩

/-- No control byte has got past the parser. -/
structure ControlFree (s : Parsing) : Prop where
  method : ∀ c ∈ s.parser.methodStr, isToken c = true
  uri : ∀ c ∈ s.request.uri, c ≠ SP ∧ isCtl c = false
  version : ∃ a b, IsDigits a ∧ IsDigits b ∧ s.request.version <+: versionText a b
  names : ∀ h ∈ s.request.headers.toList, IsTokenWord h.1
  values : ∀ h ∈ s.request.headers.toList, IsValue h.2
  key : IsValue s.parser.headerKey
  val : IsValue s.parser.headerVal

theorem Reaches.controlFree {C : Parsing → UInt8 → Prop} {s : Parsing} (h : Reaches C s) :
    ControlFree s := by
  obtain ⟨clean, versioned⟩ := h.collected
  exact {
    method := clean.method
    uri := clean.uri
    version := versioned.isPrefix
    names := fun e he => (clean.headers e he).1
    values := fun e he => (clean.headers e he).2
    key := isValue_of_tokens clean.key
    val := clean.val }

section Positions

variable {s : Parsing} {begin : Nat} {w : Bytes} {r : ParseResult}

private theorem parse_bodyLength (parsed : parse s begin w = .ok r) :
    r.parsing.parser.bodyLength = r.bodyLength := by
  cases hf : feed machine s w with
  | more t =>
      rw [parse_of_more hf] at parsed
      obtain rfl := Except.ok.inj parsed
      rfl
  | done v t rest =>
      rw [parse_of_done hf] at parsed
      obtain rfl := Except.ok.inj parsed
      rfl
  | fault e =>
      rw [parse_of_fault hf] at parsed
      cases parsed

private theorem parse_begin (parsed : parse s begin w = .ok r) :
    begin ≤ r.begin ∧ r.begin ≤ begin + w.length := by
  cases hf : feed machine s w with
  | more t =>
      rw [parse_of_more hf] at parsed
      obtain rfl := Except.ok.inj parsed
      exact ⟨Nat.le_add_right _ _, le_refl _⟩
  | done v t rest =>
      rw [parse_of_done hf] at parsed
      obtain rfl := Except.ok.inj parsed
      exact ⟨Nat.le_add_right _ _, Nat.add_le_add_left (Nat.sub_le _ _) _⟩
  | fault e =>
      rw [parse_of_fault hf] at parsed
      cases parsed

private theorem parse_verdict_end (parsed : parse s begin w = .ok r)
    (hv : r.result ≠ .indeterminate) :
    r.begin + r.bodyLength ≤ begin + w.length := by
  obtain ⟨t, rest, run, announced, hr⟩ := parse_verdict_inv parsed hv
  obtain ⟨as, b, -, rfl, -⟩ := feed_done_iff.mp run
  rw [hr]
  simp only [List.length_append, List.length_cons]
  omega

end Positions

/-- This byte makes the parser take over no negative content length, and it is not fed to a
parser that has its whole body and was not reset. -/
def CountsDown (s : Parsing) (c : UInt8) : Prop :=
  KeepsNonneg s c ∧ (s.parser.state = .body → 0 < s.parser.bodyLength)

instance (s : Parsing) (c : UInt8) : Decidable (CountsDown s c) :=
  inferInstanceAs (Decidable (_ ∧ (_ → _)))

private theorem Reaches.nonneg {s : Parsing} (h : Reaches CountsDown s) :
    0 ≤ s.parser.bodyLength := by
  refine Reaches.invariant (P := fun s => 0 ≤ s.parser.bodyLength) (le_refl 0) ?_ ?_ h
  · rintro s c v t nonneg ⟨keeps, positive⟩ consumed
    have counting : Counting s := ⟨nonneg, positive⟩
    have moved := consume_move consumed
    by_cases hv : v = .indeterminate
    · subst hv
      exact (counting.move keeps moved).nonneg
    · exact counting.nonneg_of_verdict keeps moved hv
  · intro s nonneg
    exact nonneg

/-- Where parsing is resumed: inside the buffer, not before the bytes consumed, and with a
verdict not behind its end. -/
theorem resume_position_inside {s : Parsing} (reached : Reaches CountsDown s) (begin : Nat)
    (w : Bytes) (counts : ∀ call ∈ calls machine s w, CountsDown call.1 call.2) {r : ParseResult}
    (returned : parse s begin w = .ok r) :
    begin ≤ r.begin ∧ r.begin ≤ begin + w.length ∧ 0 ≤ r.bodyLength ∧
      (r.result ≠ .indeterminate → r.begin + r.bodyLength ≤ begin + w.length) := by
  obtain ⟨after, inside⟩ := parse_begin returned
  have nonneg := (reached.parse counts returned).nonneg
  rw [parse_bodyLength returned] at nonneg
  exact ⟨after, inside, nonneg, parse_verdict_end returned⟩

/-- The second of two reads brings the rest of a body. -/
theorem resume_position_inside_post :
    ∃ s r, Reaches CountsDown s ∧ parse s 0 (lit "k!") = .ok r ∧ r.result = .good ∧
      0 ≤ r.begin ∧ r.begin ≤ 2 ∧ 0 ≤ r.bodyLength ∧ r.begin + r.bodyLength ≤ 2 := by
  have first : ∀ call ∈ calls machine .fresh (lit "POST / HTTP/1.0\r\nContent-Length: 2\r\n\r\no"),
      CountsDown call.1 call.2 := forall_mem_of_all (by decide)
  have reached := Reaches.start.parse first (show parse .fresh 0 _ = .ok _ from rfl)
  obtain ⟨after, inside, nonneg, verdict⟩ := resume_position_inside reached 0 (lit "k!")
    (forall_mem_of_all (by decide)) rfl
  exact ⟨_, _, reached, rfl, rfl, after, inside, nonneg, verdict (by decide)⟩

/-- A negative content length moves the position before the bytes consumed. -/
theorem resume_position_before :
    ∃ r, Reachable .fresh ∧
      parse .fresh 0 (lit "GET / HTTP/1.0\r\nContent-Length: -5\r\n\r\n") = .ok r ∧
      ¬ 0 ≤ r.bodyLength ∧ r.begin + r.bodyLength < r.begin :=
  ⟨_, .start, rfl, by decide, by decide⟩

end Wnza.Http.Reach
