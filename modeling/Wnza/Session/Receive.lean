/- GID: Wnza/Session/Receive
   generality: I
   source: include/session.h, src/session.cc
   digest: The receive loop of a session, pass by pass, and its runs over successive reads. -/

import Wnza.Foundation.DoWhile
import Wnza.Http.Counter

set_option autoImplicit false
set_option relaxedAutoImplicit false

namespace Wnza.Session.Receive

open Wnza.Foundation.Feed
open Wnza.Foundation.DoWhile
open Wnza.Http.Text
open Wnza.Http.Parser
open Wnza.Http.Counter

/-- A request pushed by the receive loop.  The source keeps the request alone; the verdict it
was pushed for stands beside it here. -/
structure Delivery where
  verdict : ResultType
  request : Request
  deriving DecidableEq

/-- The test at the end of a pass: `body_start + body_len` against the end of the data. -/
def leave (data : Bytes) (out : List Delivery) (r : ParseResult) : Pass Parsing Delivery Fault :=
  if r.begin + r.bodyLength < data.length then .again out r.parsing else .exit out r.parsing

/-- One pass of the loop.  Pointers are offsets into the data, and the data cannot be read
from before its start. -/
def receivePass (data : Bytes) (s : Parsing) : Pass Parsing Delivery Fault :=
  match parse s 0 data with
  | .error e => .raise [] e
  | .ok r =>
      if r.result = .indeterminate then leave data [] r
      else
        let delivery : Delivery := ⟨r.result, r.parsing.request⟩
        let next := r.begin + r.bodyLength
        if next < 0 then .raise [delivery] .undefinedBehaviour
        else
          match parse .fresh next.toNat (data.drop next.toNat) with
          | .error e => .raise [delivery] e
          | .ok r => leave data [delivery] r

def passReports (data : Bytes) (s : Parsing) : List Delivery :=
  match parse s 0 data with
  | .error _ => []
  | .ok r =>
      if r.result = .indeterminate then []
      else
        let next := r.begin + r.bodyLength
        ⟨r.result, r.parsing.request⟩ ::
          if next < 0 then []
          else
            match parse .fresh next.toNat (data.drop next.toNat) with
            | .error _ => []
            | .ok r' =>
                if r'.result = .indeterminate then [] else [⟨r'.result, r'.parsing.request⟩]

private theorem receivePass_out (data : Bytes) (s : Parsing) :
    (receivePass data s).out = (passReports data s).take 1 := by
  have left : ∀ out r, (leave data out r).out = out := by
    intro out r
    unfold leave
    split <;> rfl
  unfold receivePass passReports
  cases parse s 0 data with
  | error e => rfl
  | ok r =>
      by_cases hr : r.result = .indeterminate
      · simp only [if_pos hr, left, List.take_nil]
      · simp only [if_neg hr, List.take_succ_cons, List.take_zero]
        by_cases hnext : r.begin + r.bodyLength < 0
        · simp only [if_pos hnext]
          rfl
        · simp only [if_neg hnext]
          cases parse .fresh (r.begin + r.bodyLength).toNat
              (data.drop (r.begin + r.bodyLength).toNat) with
          | error e => rfl
          | ok r' => exact left _ _

/-- `received_req` on the bytes of one read: the requests for `thread_work`, in order, and the
state kept for the next read. -/
def Received (s : Parsing) (data : Bytes) (out : List Delivery) (t : Parsing) : Prop :=
  Ends (receivePass data) s out (.exited t)

/-- The same, with the verdicts that all its parse calls report. -/
def ReceivedReporting (s : Parsing) (data : Bytes) (out reports : List Delivery) (t : Parsing) :
    Prop :=
  ∃ n, loop (receivePass data) n s = some (out, .exited t) ∧
    reports = (starts (receivePass data) n s).flatMap (passReports data)

theorem ReceivedReporting.out_eq {s t : Parsing} {data : Bytes} {out reports : List Delivery}
    (h : ReceivedReporting s data out reports t)
    (single : ∀ u, Begins (receivePass data) s u → (passReports data u).length ≤ 1) :
    out = reports := by
  obtain ⟨n, hloop, rfl⟩ := h
  rw [out_of_loop hloop]
  apply List.flatMap_congr
  intro u hu
  rw [receivePass_out]
  exact List.take_of_length_le (single u (begins_of_mem_starts hu))

/-- A session over successive reads, with what each of them passes on. -/
inductive Runs : Parsing → List Bytes → List (List Delivery) → Parsing → Prop
  | nil (s : Parsing) : Runs s [] [] s
  | cons {s t u : Parsing} {data : Bytes} {reads : List Bytes} {out : List Delivery}
      {outs : List (List Delivery)} (first : Received s data out t)
      (rest : Runs t reads outs u) : Runs s (data :: reads) (out :: outs) u

theorem Runs.unique {s t t' : Parsing} {reads : List Bytes} {outs outs' : List (List Delivery)}
    (h : Runs s reads outs t) (h' : Runs s reads outs' t') : outs = outs' ∧ t = t' := by
  induction h generalizing outs' with
  | nil s =>
      cases h'
      exact ⟨rfl, rfl⟩
  | cons first rest ih =>
      cases h' with
      | cons first' rest' =>
          obtain ⟨rfl, hstate⟩ := first.unique first'
          injection hstate with hstate
          subst hstate
          obtain ⟨rfl, rfl⟩ := ih rest'
          exact ⟨rfl, rfl⟩

theorem Runs.concat_inv {s u : Parsing} {reads : List Bytes} {data : Bytes}
    {outs : List (List Delivery)} (h : Runs s (reads ++ [data]) outs u) :
    ∃ before out t, outs = before ++ [out] ∧ Runs s reads before t ∧ Received t data out u := by
  induction reads generalizing s outs with
  | nil =>
      cases h with
      | cons first rest =>
          cases rest
          exact ⟨[], _, s, rfl, .nil s, first⟩
  | cons d reads ih =>
      cases h with
      | cons first rest =>
          obtain ⟨before, out, t, rfl, runs, last⟩ := ih rest
          exact ⟨_ :: before, out, t, rfl, .cons first runs, last⟩

/-- A property of every read of a session, given the state in which the read finds it. -/
def EachRead (C : Parsing → Bytes → Prop) (reads : List Bytes) : Prop :=
  ∀ before data after outs s, reads = before ++ data :: after → Runs .fresh before outs s →
    C s data

theorem eachRead_singleton {C : Parsing → Bytes → Prop} {data : Bytes} :
    EachRead C [data] ↔ C .fresh data := by
  constructor
  · intro h
    exact h [] data [] [] .fresh rfl (.nil _)
  · intro h before d after outs s split runs
    obtain ⟨rfl, hd⟩ : before = [] ∧ data :: [] = d :: after := by
      cases before with
      | nil => exact ⟨rfl, split⟩
      | cons a before => simp at split
    obtain rfl : data = d := (List.cons.inj hd).1
    cases runs
    exact h

theorem EachRead.invariant {C : Parsing → Bytes → Prop} {P : Parsing → Prop}
    (start : P .fresh)
    (read : ∀ s data out t, P s → C s data → Received s data out t → P t)
    {reads : List Bytes} (each : EachRead C reads) :
    EachRead (fun s data => P s ∧ C s data) reads := by
  have between : ∀ before after outs s, reads = before ++ after → Runs .fresh before outs s →
      P s := by
    intro before
    induction before using List.reverseRecOn with
    | nil =>
        intro after outs s _ runs
        cases runs
        exact start
    | append_singleton before data ih =>
        intro after outs s split runs
        obtain ⟨outs', out, t, rfl, runs', last⟩ := runs.concat_inv
        have split' : reads = before ++ data :: after := by simpa using split
        exact read t data out s (ih _ outs' t split' runs')
          (each before data after outs' t split' runs') last
  intro before data after outs s split runs
  exact ⟨between before _ outs s split runs, each before data after outs s split runs⟩

def settle (out : List Delivery) : Outcome Parsing UInt8 ResultType Fault →
    Pass Parsing Delivery Fault
  | .more t => if t.parser.bodyLength < 0 then .again out t else .exit out t
  | .done _ t rest =>
      if t.parser.bodyLength < rest.length then .again out t.setMethod
      else .exit out t.setMethod
  | .fault e => .raise out e

private theorem settle_parse {s : Parsing} {begin : Nat} {w data : Bytes} (out : List Delivery)
    (hlen : begin + w.length = data.length) :
    (match parse s begin w with
      | .error e => .raise out e
      | .ok r => leave data out r) = settle out (feed machine s w) := by
  cases hf : feed machine s w with
  | more t =>
      simp only [parse_of_more hf, leave, settle, hlen]
      congr 1
      rw [eq_iff_iff]
      omega
  | fault e => simp only [parse_of_fault hf, settle]
  | done v t rest =>
      have shorter : rest.length ≤ w.length := by
        obtain ⟨as, b, -, rfl, -⟩ := feed_done_iff.mp hf
        simp only [List.length_append, List.length_cons]
        omega
      simp only [parse_of_done hf, leave, settle]
      congr 1
      rw [eq_iff_iff]
      omega

theorem receivePass_eq (data : Bytes) (s : Parsing) :
    receivePass data s =
      match feed machine s data with
      | .more t => settle [] (.more t)
      | .fault e => .raise [] e
      | .done v t rest =>
          if rest.length < t.parser.bodyLength then .exit [] t.setMethod
          else
            let next := (data.length - rest.length : Nat) + t.parser.bodyLength
            if next < 0 then .raise [⟨v, t.setMethod.request⟩] .undefinedBehaviour
            else settle [⟨v, t.setMethod.request⟩]
              (feed machine .fresh (data.drop next.toNat)) := by
  cases hf : feed machine s data with
  | more t =>
      have settled := settle_parse (s := s) (w := data) [] (Nat.zero_add data.length)
      simp only [hf] at settled
      simp only [parse_of_more hf] at settled
      simp only [receivePass, parse_of_more hf, if_true, settled]
  | fault e => simp only [receivePass, parse_of_fault hf]
  | done v t rest =>
      obtain ⟨as, b, u, hdata, -, hb⟩ := feed_done_iff.mp hf
      have hv : v ≠ .indeterminate := (machine_stop_iff.mp hb).2
      have hlen : data.length = as.length + (rest.length + 1) := by
        rw [hdata, List.length_append, List.length_cons]
      simp only [receivePass, parse_of_done hf, Nat.zero_add]
      by_cases hle : t.parser.bodyLength ≤ rest.length
      · rw [if_neg (show ¬ (rest.length : Int) < t.parser.bodyLength by omega)]
        simp only [if_pos hle, if_neg hv]
        by_cases hnext : ((data.length - rest.length : Nat) : Int) + t.parser.bodyLength < 0
        · simp only [if_pos hnext]
        · simp only [if_neg hnext]
          refine settle_parse _ ?_
          rw [List.length_drop]
          omega
      · have past : ¬ ((data.length - rest.length : Nat) : Int) + t.parser.bodyLength <
            data.length := by omega
        simp only [if_neg hle, if_true, leave, if_neg past,
          if_pos (show (rest.length : Int) < t.parser.bodyLength by omega)]

section Passes

variable {data rest : Bytes} {s t : Parsing} {v : ResultType}

theorem receivePass_of_more (h : feed machine s data = .more t)
    (nonneg : 0 ≤ t.parser.bodyLength) : receivePass data s = .exit [] t := by
  rw [receivePass_eq, h]
  simp only [settle, if_neg (show ¬ t.parser.bodyLength < 0 by omega)]

theorem receivePass_of_withheld (h : feed machine s data = .done v t rest)
    (hlt : (rest.length : Int) < t.parser.bodyLength) :
    receivePass data s = .exit [] t.setMethod := by
  rw [receivePass_eq, h]
  simp only [if_pos hlt]

theorem receivePass_of_done (h : feed machine s data = .done v t rest)
    (nonneg : 0 ≤ t.parser.bodyLength) (hle : t.parser.bodyLength ≤ rest.length) :
    receivePass data s = settle [⟨v, t.setMethod.request⟩]
      (feed machine .fresh (rest.drop t.parser.bodyLength.toNat)) := by
  obtain ⟨as, b, u, hdata, -⟩ := feed_done_iff.mp h
  have hlen : data.length = as.length + (rest.length + 1) := by
    rw [hdata, List.length_append, List.length_cons]
  have next : (((data.length - rest.length : Nat) : Int) + t.parser.bodyLength).toNat =
      (as ++ [b]).length + t.parser.bodyLength.toNat := by
    rw [List.length_append, List.length_singleton]
    omega
  have dropped : data.drop ((as ++ [b]).length + t.parser.bodyLength.toNat) =
      rest.drop t.parser.bodyLength.toNat := by
    rw [hdata, List.append_cons as b rest, List.drop_length_add_append]
  rw [receivePass_eq, h]
  simp only [if_neg (show ¬ (rest.length : Int) < t.parser.bodyLength by omega),
    if_neg (show ¬ ((data.length - rest.length : Nat) : Int) + t.parser.bodyLength < 0 by omega),
    next, dropped]

end Passes

/-- The calls of `parse` that a session makes over these reads: the parser, the position in
the data and the bytes from there on. -/
inductive ParseCall (reads : List Bytes) : Parsing → Int → Bytes → Prop
  | first {before after : List Bytes} {data : Bytes} {outs : List (List Delivery)}
      {s u : Parsing} (split : reads = before ++ data :: after) (runs : Runs .fresh before outs s)
      (begins : Begins (receivePass data) s u) : ParseCall reads u 0 data
  | second {before after : List Bytes} {data : Bytes} {outs : List (List Delivery)}
      {s u : Parsing} {r : ParseResult} (split : reads = before ++ data :: after)
      (runs : Runs .fresh before outs s) (begins : Begins (receivePass data) s u)
      (parsed : parse u 0 data = .ok r) (verdict : r.result ≠ .indeterminate) :
      ParseCall reads .fresh (r.begin + r.bodyLength)
        (data.drop (r.begin + r.bodyLength).toNat)

/-- The call reads inside the data and returns. -/
def Returns (u : Parsing) (begin : Int) (w : Bytes) : Prop :=
  0 ≤ begin ∧ ∃ r, parse u begin.toNat w = .ok r

private theorem exists_parse_iff {u : Parsing} {begin : Nat} {w : Bytes} :
    (∃ r, parse u begin w = .ok r) ↔
      ∀ call ∈ calls machine u w, Converts call.1 call.2 →
        ∃ n, stoi call.1.parser.headerVal = .ok n := by
  constructor
  · rintro ⟨r, hr⟩ ⟨x, c⟩ hcall hconv
    cases hstoi : stoi x.parser.headerVal with
    | ok n => exact ⟨n, rfl⟩
    | error e =>
        have raised : machine x c = .fault e :=
          machine_fault_iff.mpr (consume_error_iff.mpr ⟨hconv, hstoi⟩)
        have fault := feed_fault_iff_calls.mpr ⟨(x, c), hcall, raised⟩
        rw [parse_of_fault fault] at hr
        cases hr
  · intro accepted
    cases hf : feed machine u w with
    | more t => exact ⟨_, parse_of_more hf begin⟩
    | done v t rest => exact ⟨_, parse_of_done hf begin⟩
    | fault e =>
        obtain ⟨⟨x, c⟩, hcall, raised⟩ := feed_fault_iff_calls.mp hf
        obtain ⟨hconv, hstoi⟩ := consume_error_iff.mp (machine_fault_iff.mp raised)
        obtain ⟨n, hn⟩ := accepted (x, c) hcall hconv
        simp [hstoi] at hn

/-- Every parse of a session returns exactly if it begins inside the data and `std::stoi`
accepts each content length on the byte that converts it. -/
theorem parse_calls_return_iff (reads : List Bytes) :
    (∀ u begin w, ParseCall reads u begin w → Returns u begin w) ↔
      ∀ u begin w, ParseCall reads u begin w → 0 ≤ begin ∧
        ∀ call ∈ calls machine u w, Converts call.1 call.2 →
          ∃ n, stoi call.1.parser.headerVal = .ok n := by
  constructor
  · intro returns u begin w called
    obtain ⟨inside, returned⟩ := returns u begin w called
    exact ⟨inside, exists_parse_iff.mp returned⟩
  · intro accepted u begin w called
    obtain ⟨inside, lengths⟩ := accepted u begin w called
    exact ⟨inside, exists_parse_iff.mpr lengths⟩

/-- A content length that is no number ends the server. -/
theorem parse_call_raises :
    ParseCall [lit "GET / HTTP/1.0\r\nContent-Length: abc\r\n\r\n"] .fresh 0
        (lit "GET / HTTP/1.0\r\nContent-Length: abc\r\n\r\n") ∧
      ¬ Returns .fresh 0 (lit "GET / HTTP/1.0\r\nContent-Length: abc\r\n\r\n") ∧
      parse .fresh 0 (lit "GET / HTTP/1.0\r\nContent-Length: abc\r\n\r\n") =
        .error .invalidArgument := by
  have raised : parse .fresh 0 (lit "GET / HTTP/1.0\r\nContent-Length: abc\r\n\r\n") =
      .error .invalidArgument := by
    rfl
  refine ⟨.first (List.nil_append _).symm (.nil _) .refl, ?_, raised⟩
  rintro ⟨-, r, hr⟩
  rw [show (0 : Int).toNat = 0 from rfl, raised] at hr
  cases hr

end Wnza.Session.Receive
