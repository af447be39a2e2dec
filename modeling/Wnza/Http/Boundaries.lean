/- GID: Wnza/Http/Boundaries
   generality: I
   source: include/request_parser.h, src/request_parser.cc (parse)
   digest: When the cutting of a stream into buffers is invisible in what parse returns. -/

import Wnza.Http.Reach

set_option autoImplicit false
set_option relaxedAutoImplicit false

namespace Wnza.Http.Boundaries

open Wnza.Foundation.Feed
open Wnza.Http.Text
open Wnza.Http.Parser
open Wnza.Http.Moves
open Wnza.Http.Reach

/-- Calls of `parse` on one buffer after the other, up to the first verdict: the verdict, the
bytes consumed by all calls and the request. -/
def parseBuffers (s : Parsing) (consumed : Nat) :
    List Bytes → Except Fault (ResultType × Nat × Request)
  | [] => .ok (.indeterminate, consumed, s.request)
  | w :: ws =>
      match parse s 0 w with
      | .error e => .error e
      | .ok r =>
          if r.result = .indeterminate then parseBuffers r.parsing (consumed + r.begin) ws
          else .ok (r.result, consumed + r.begin, r.parsing.request)

/-- Each of these calls without a verdict has consumed its whole buffer. -/
def ConsumesAll (s : Parsing) : List Bytes → Prop
  | [] => True
  | w :: ws => ∀ r, parse s 0 w = .ok r → r.result = .indeterminate →
      r.begin = w.length ∧ ConsumesAll r.parsing ws

/-- Two cuttings of the stream give the same, and no byte of a buffer is passed over. -/
def Uniform (w : Bytes) : Prop :=
  (∀ ws ws' : List Bytes, ws.flatten = w → ws'.flatten = w →
    parseBuffers .fresh 0 ws = parseBuffers .fresh 0 ws') ∧
  ∀ ws : List Bytes, ws.flatten = w → ConsumesAll .fresh ws

/-- The first byte with a verdict is rejected while a body is announced, and it is not the last
byte of the stream. -/
def RejectedEarly (w : Bytes) : Prop :=
  ∃ t rest, feed machine .fresh w = .done .bad t rest ∧ rest ≠ [] ∧ 0 < t.parser.bodyLength

section Cuttings

variable {s t u : Parsing} {w : Bytes} {ws : List Bytes} {v : ResultType} {rest : Bytes}

private theorem parseBuffers_cons_more (h : feed machine s w = .more u) (ws : List Bytes)
    (n : Nat) :
    parseBuffers s n (w :: ws) = parseBuffers u (n + w.length) ws ∧
      (ConsumesAll s (w :: ws) ↔ ConsumesAll u ws) := by
  have parsed := parse_of_more h 0
  rw [Nat.zero_add] at parsed
  constructor
  · simp only [parseBuffers, parsed, if_true]
  · constructor
    · intro all
      exact (all _ parsed rfl).2
    · intro all r hr _
      rw [parsed] at hr
      obtain rfl := Except.ok.inj hr
      exact ⟨rfl, all⟩

private theorem parseBuffers_of_more (h : feed machine s ws.flatten = .more t) (n : Nat) :
    parseBuffers s n ws = .ok (.indeterminate, n + ws.flatten.length, t.request) ∧
      ConsumesAll s ws := by
  induction ws generalizing s n with
  | nil =>
      injection h with h
      subst h
      exact ⟨rfl, trivial⟩
  | cons w ws ih =>
      obtain ⟨u, hu, hrest⟩ := feed_more_append_iff.mp h
      obtain ⟨value, all⟩ := ih hrest (n + w.length)
      obtain ⟨first, consumes⟩ := parseBuffers_cons_more hu ws n
      rw [first, value, List.flatten_cons, List.length_append, Nat.add_assoc]
      exact ⟨rfl, consumes.mpr all⟩

private theorem parseBuffers_of_done (h : feed machine s ws.flatten = .done v t rest)
    (length : t.parser.bodyLength ≤ 0) (n : Nat) :
    parseBuffers s n ws =
        .ok (v, n + (ws.flatten.length - rest.length), t.setMethod.request) ∧
      ConsumesAll s ws := by
  induction ws generalizing s n with
  | nil => cases h
  | cons w ws ih =>
      rw [List.flatten_cons, feed_append] at h
      cases hw : feed machine s w with
      | fault e =>
          rw [hw] at h
          cases h
      | more u =>
          rw [hw] at h
          obtain ⟨value, all⟩ := ih h (n + w.length)
          obtain ⟨first, consumes⟩ := parseBuffers_cons_more hw ws n
          have shorter : rest.length ≤ ws.flatten.length := by
            obtain ⟨as, b, -, split, -⟩ := feed_done_iff.mp h
            rw [split, List.length_append, List.length_cons]
            omega
          rw [first, value, List.flatten_cons, List.length_append]
          refine ⟨?_, consumes.mpr all⟩
          congr 3
          omega
      | done v' t' rest' =>
          rw [hw] at h
          injection h with hv ht hrest
          subst hv ht hrest
          obtain ⟨as, b, u, -, -, hb⟩ := feed_done_iff.mp hw
          have verdict := (machine_stop_iff.mp hb).2
          have parsed := parse_of_done hw 0
          rw [if_pos (show t'.parser.bodyLength ≤ rest'.length by omega)] at parsed
          constructor
          · simp only [parseBuffers, parsed, if_neg verdict, List.flatten_cons, List.length_append]
            congr 3
            omega
          · intro r hr hind
            rw [parsed] at hr
            obtain rfl := Except.ok.inj hr
            exact absurd hind verdict

private theorem parseBuffers_of_withheld (h : feed machine s ws.flatten = .done v t [])
    (length : 0 < t.parser.bodyLength) (n : Nat) :
    parseBuffers s n ws = .ok (.indeterminate, n + ws.flatten.length, t.setMethod.request) ∧
      ConsumesAll s ws := by
  induction ws generalizing s n with
  | nil => cases h
  | cons w ws ih =>
      rw [List.flatten_cons, feed_append] at h
      cases hw : feed machine s w with
      | fault e =>
          rw [hw] at h
          cases h
      | more u =>
          rw [hw] at h
          obtain ⟨value, all⟩ := ih h (n + w.length)
          obtain ⟨first, consumes⟩ := parseBuffers_cons_more hw ws n
          rw [first, value, List.flatten_cons, List.length_append, Nat.add_assoc]
          exact ⟨rfl, consumes.mpr all⟩
      | done v' t' rest' =>
          rw [hw] at h
          injection h with hv ht hrest
          obtain ⟨rfl, flat⟩ := List.append_eq_nil_iff.mp hrest
          subst hv ht
          -- nothing is left for the other buffers
          have after : feed machine t'.setMethod ws.flatten = .more t'.setMethod := by
            rw [flat, feed_nil]
          obtain ⟨value, all⟩ := parseBuffers_of_more after (n + w.length)
          have parsed := parse_of_done hw 0
          rw [if_neg (show ¬ t'.parser.bodyLength ≤ ([] : Bytes).length by simpa using length)]
            at parsed
          simp only [List.length_nil, Nat.sub_zero, Nat.zero_add] at parsed
          constructor
          · simp only [parseBuffers, parsed, if_true, value, List.flatten_cons, List.length_append,
              Nat.add_assoc]
          · intro r hr _
            rw [parsed] at hr
            obtain rfl := Except.ok.inj hr
            exact ⟨rfl, all⟩

private theorem bodyLength_of_good (h : feed machine s w = .done .good t rest) :
    t.parser.bodyLength = 0 := by
  obtain ⟨as, b, u, -, -, hb⟩ := feed_done_iff.mp h
  cases consume_move (machine_stop_iff.mp hb).1 with
  | headEnd _ _ _ _ hzero => exact hzero
  | bodyEnd _ hzero => exact hzero

private theorem begin_of_verdict {n : Nat} {r : ParseResult} (parsed : parse s n w = .ok r)
    (hv : r.result ≠ .indeterminate) : n < r.begin := by
  obtain ⟨t, rest, run, -, hr⟩ := parse_verdict_inv parsed hv
  obtain ⟨as, b, -, rfl, -⟩ := feed_done_iff.mp run
  rw [hr]
  simp only [List.length_append, List.length_cons]
  omega

end Cuttings

private theorem uniform_of_not_rejectedEarly {w : Bytes} (returns : ∃ r, parse .fresh 0 w = .ok r)
    (h : ¬ RejectedEarly w) : Uniform w := by
  obtain ⟨value, fixed⟩ : ∃ value, ∀ ws : List Bytes, ws.flatten = w →
      parseBuffers .fresh 0 ws = value ∧ ConsumesAll .fresh ws := by
    cases hf : feed machine .fresh w with
    | fault e =>
        obtain ⟨r, hr⟩ := returns
        rw [parse_of_fault hf] at hr
        cases hr
    | more t =>
        refine ⟨.ok (.indeterminate, 0 + w.length, t.request), fun ws hws => ?_⟩
        subst hws
        exact parseBuffers_of_more hf 0
    | done v t rest =>
        by_cases length : t.parser.bodyLength ≤ 0
        · refine ⟨.ok (v, 0 + (w.length - rest.length), t.setMethod.request), fun ws hws => ?_⟩
          subst hws
          exact parseBuffers_of_done hf length 0
        · have bad : v = .bad := by
            obtain ⟨as, b, u, -, -, hb⟩ := feed_done_iff.mp hf
            have verdict := (machine_stop_iff.mp hb).2
            cases v with
            | bad => rfl
            | good => exact absurd (le_of_eq (bodyLength_of_good hf)) length
            | indeterminate => exact absurd rfl verdict
          have last : rest = [] := by
            by_contra more
            exact h ⟨t, rest, by rw [hf, bad], more, by omega⟩
          subst last
          refine ⟨.ok (.indeterminate, 0 + w.length, t.setMethod.request), fun ws hws => ?_⟩
          subst hws
          exact parseBuffers_of_withheld hf (by omega) 0
  constructor
  · intro ws ws' hws hws'
    rw [(fixed ws hws).1, (fixed ws' hws').1]
  · intro ws hws
    exact (fixed ws hws).2

private theorem not_uniform_of_rejectedEarly {w : Bytes} (h : RejectedEarly w) : ¬ Uniform w := by
  obtain ⟨t, rest, run, more, length⟩ := h
  rintro ⟨same, all⟩
  obtain ⟨as, b, u, rfl, ha, hb⟩ := feed_done_iff.mp run
  have whole := parse_of_done run 0
  by_cases inside : t.parser.bodyLength ≤ rest.length
  · rw [if_pos inside] at whole
    have first : parseBuffers .fresh 0 [as ++ b :: rest] =
        .ok (.bad, as.length + 1, t.setMethod.request) := by
      simp only [parseBuffers, whole, List.length_append, List.length_cons, reduceCtorEq, if_false]
      congr 3
      omega
    have cut : feed machine .fresh (as ++ [b]) = .done .bad t [] := by
      rw [feed_append_of_more ha, feed_cons_stop hb]
    have withheld := parse_of_done cut 0
    rw [if_neg (show ¬ t.parser.bodyLength ≤ ([] : Bytes).length by simpa using length)] at withheld
    have agree := same [as ++ b :: rest] [as ++ [b], rest] (by simp) (by simp)
    rw [first] at agree
    simp only [parseBuffers, withheld, if_true, List.length_append, List.length_singleton,
      List.length_nil, Nat.sub_zero, Nat.zero_add] at agree
    cases again : parse t.setMethod 0 rest with
    | error e =>
        rw [again] at agree
        cases agree
    | ok r =>
        simp only [again] at agree
        by_cases hr : r.result = .indeterminate
        · rw [if_pos hr] at agree
          cases agree
        · rw [if_neg hr] at agree
          have later := begin_of_verdict again hr
          have position := congrArg (fun p => p.2.1) (Except.ok.inj agree)
          simp only at position
          omega
  · rw [if_neg inside] at whole
    obtain ⟨position, -⟩ := all [as ++ b :: rest] (by simp) _ whole rfl
    have nonempty : 0 < rest.length := List.length_pos_iff.mpr more
    simp only [List.length_append, List.length_cons] at position
    omega

/-- The cutting of a stream is invisible exactly if no byte but the last is rejected while a body
is announced. -/
theorem uniform_iff (w : Bytes) (returns : ∃ r, parse .fresh 0 w = .ok r) :
    Uniform w ↔ ¬ RejectedEarly w := by
  constructor
  · intro uniform early
    exact not_uniform_of_rejectedEarly early uniform
  · exact uniform_of_not_rejectedEarly returns

/-- A request with a body, and the beginning of the next one. -/
theorem uniform_post :
    Uniform (lit "POST / HTTP/1.0\r\nContent-Length: 2\r\n\r\nokGET") := by
  apply (uniform_iff _ ⟨_, rfl⟩).mpr
  rintro ⟨t, rest, run, -⟩
  have good : feed machine .fresh (lit "POST / HTTP/1.0\r\nContent-Length: 2\r\n\r\nokGET") =
      .done .good _ (lit "GET") := rfl
  rw [good] at run
  cases run

/-- A header name with a carriage return in it, behind a content length: the verdict on it is
given or withheld by the place of the cut. -/
theorem cut_withholds_verdict :
    (parseBuffers .fresh 0 [lit "GET / HTTP/1.0\r\nContent-Length: 5\r\nA\r12345"]).map
        (fun p => (p.1, p.2.1)) = .ok (.bad, 37) ∧
      (parseBuffers .fresh 0
          [lit "GET / HTTP/1.0\r\nContent-Length: 5\r\nA\r", lit "12345"]).map
        (fun p => (p.1, p.2.1)) = .ok (.indeterminate, 42) ∧
      ¬ Uniform (lit "GET / HTTP/1.0\r\nContent-Length: 5\r\nA\r12345") := by
  have whole : (parseBuffers .fresh 0
      [lit "GET / HTTP/1.0\r\nContent-Length: 5\r\nA\r12345"]).map
        (fun p => (p.1, p.2.1)) = .ok (.bad, 37) := by decide
  have cut : (parseBuffers .fresh 0
      [lit "GET / HTTP/1.0\r\nContent-Length: 5\r\nA\r", lit "12345"]).map
        (fun p => (p.1, p.2.1)) = .ok (.indeterminate, 42) := by decide
  refine ⟨whole, cut, ?_⟩
  rintro ⟨same, -⟩
  rw [same _ [lit "GET / HTTP/1.0\r\nContent-Length: 5\r\nA\r", lit "12345"] (by decide)
    (by decide), cut] at whole
  cases whole

end Wnza.Http.Boundaries
