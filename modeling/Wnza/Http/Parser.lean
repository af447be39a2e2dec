/- GID: Wnza/Http/Parser
   generality: I
   source: include/request.h, include/request_parser.h, src/request_parser.cc
   digest: The 21-state request parser, one byte and one buffer at a time. -/

import Wnza.Foundation.Feed
import Wnza.Http.Text
import Mathlib.Tactic.SplitIfs

set_option autoImplicit false
set_option relaxedAutoImplicit false

namespace Wnza.Http.Parser

open Wnza.Foundation.Feed
open Wnza.Http.Text

/-- `std::map<std::string, std::string>`: iteration is in key order. -/
abbrev Headers := Std.ExtTreeMap Bytes Bytes

inductive Method
  | GET | POST | PUT | HEAD | INVALID
  deriving DecidableEq

structure Request where
  method : Method
  uri : Bytes
  version : Bytes
  headers : Headers
  body : Bytes
  deriving DecidableEq

/-- The value `{}`.  A default-initialised request differs in `method_` only, which `parse`
writes before anything reads it. -/
def Request.empty : Request := ⟨.GET, [], [], ∅, []⟩

inductive ResultType
  | good | bad | indeterminate
  deriving DecidableEq

inductive State
  | methodStart | method | uri
  | httpVersionH | httpVersionT1 | httpVersionT2 | httpVersionP | httpVersionSlash
  | httpVersionMajorStart | httpVersionMajor | httpVersionMinorStart | httpVersionMinor
  | expectingNewline1 | headerLineStart | headerLws | headerName
  | spaceBeforeHeaderValue | headerValue | expectingNewline2 | expectingNewline3 | body
  deriving DecidableEq

/-- `body_length` is an `int`; its overflow is undefined, so the counter is unbounded here. -/
structure RequestParser where
  state : State
  headerKey : Bytes
  headerVal : Bytes
  methodStr : Bytes
  bodyLength : Int
  deriving DecidableEq

/-- The constructed parser, and the parser after `reset`. -/
def RequestParser.reset : RequestParser := ⟨.methodStart, [], [], [], 0⟩

/-- A request under construction together with the parser that fills it. -/
structure Parsing where
  request : Request
  parser : RequestParser
  deriving DecidableEq

def Parsing.fresh : Parsing := ⟨.empty, .reset⟩

namespace Parsing

def goto (s : Parsing) (st : State) : Parsing :=
  { s with parser := { s.parser with state := st } }

def pushMethod (s : Parsing) (c : UInt8) : Parsing :=
  { s with parser := { s.parser with methodStr := s.parser.methodStr ++ [c] } }

def pushUri (s : Parsing) (c : UInt8) : Parsing :=
  { s with request := { s.request with uri := s.request.uri ++ [c] } }

def pushVersion (s : Parsing) (c : UInt8) : Parsing :=
  { s with request := { s.request with version := s.request.version ++ [c] } }

def pushKey (s : Parsing) (c : UInt8) : Parsing :=
  { s with parser := { s.parser with headerKey := s.parser.headerKey ++ [c] } }

def pushVal (s : Parsing) (c : UInt8) : Parsing :=
  { s with parser := { s.parser with headerVal := s.parser.headerVal ++ [c] } }

def pushBody (s : Parsing) (c : UInt8) : Parsing :=
  { s with
    request := { s.request with body := s.request.body ++ [c] }
    parser := { s.parser with bodyLength := s.parser.bodyLength - 1 } }

def clearHeader (s : Parsing) : Parsing :=
  { s with parser := { s.parser with headerKey := [], headerVal := [] } }

/-- Put the pending header into the map, keeping an earlier value of the same name, and take
over a content length.  Nothing is pending while `header_key` is empty. -/
def commitHeader (s : Parsing) : Except Fault Parsing :=
  if s.parser.headerKey = [] then .ok s
  else
    let headers := s.request.headers.insertIfNew s.parser.headerKey s.parser.headerVal
    let s := { s with request := { s.request with headers := headers } }
    if s.parser.headerKey = lit "Content-Length" then
      match stoi s.parser.headerVal with
      | .error e => .error e
      | .ok n => .ok { s with parser := { s.parser with bodyLength := n } }
    else .ok s

theorem commitHeader_inv {s t : Parsing} (h : s.commitHeader = .ok t) :
    (s.parser.headerKey = [] ∧ t = s) ∨
    (s.parser.headerKey ≠ [] ∧ ∃ n,
      t = ⟨{ s.request with
              headers := s.request.headers.insertIfNew s.parser.headerKey s.parser.headerVal },
            { s.parser with bodyLength := n }⟩ ∧
      (s.parser.headerKey = lit "Content-Length" → stoi s.parser.headerVal = .ok n) ∧
      (s.parser.headerKey ≠ lit "Content-Length" → n = s.parser.bodyLength)) := by
  by_cases hkey : s.parser.headerKey = []
  · rw [commitHeader, if_pos hkey] at h
    exact .inl ⟨hkey, (Except.ok.inj h).symm⟩
  · refine .inr ⟨hkey, ?_⟩
    rw [commitHeader, if_neg hkey] at h
    by_cases hc : s.parser.headerKey = lit "Content-Length"
    · simp only [if_pos hc] at h
      cases hv : stoi s.parser.headerVal with
      | error e => simp [hv] at h
      | ok n =>
          rw [hv] at h
          exact ⟨n, (Except.ok.inj h).symm, fun _ => rfl, fun h => absurd hc h⟩
    · simp only [if_neg hc] at h
      exact ⟨s.parser.bodyLength, (Except.ok.inj h).symm, fun h => absurd h hc, fun _ => rfl⟩

end Parsing

/-- What one call of `consume` returns, with the request and the parser as it leaves them. -/
abbrev Consumed := Except Fault (ResultType × Parsing)

def bad (s : Parsing) : Consumed := .ok (.bad, s)

def good (s : Parsing) : Consumed := .ok (.good, s)

def indeterminate (s : Parsing) : Consumed := .ok (.indeterminate, s)

theorem bad_eq_ok {s t : Parsing} {v : ResultType} :
    bad s = .ok (v, t) ↔ v = .bad ∧ t = s := by
  simp [bad, eq_comm]

theorem good_eq_ok {s t : Parsing} {v : ResultType} :
    good s = .ok (v, t) ↔ v = .good ∧ t = s := by
  simp [good, eq_comm]

theorem indeterminate_eq_ok {s t : Parsing} {v : ResultType} :
    indeterminate s = .ok (v, t) ↔ v = .indeterminate ∧ t = s := by
  simp [indeterminate, eq_comm]

@[simp] theorem indeterminate_inj {s t : Parsing} : indeterminate s = indeterminate t ↔ s = t := by
  simp [indeterminate]

@[simp] theorem bad_ne_indeterminate {s t : Parsing} : bad s ≠ indeterminate t := by
  simp [bad, indeterminate]

@[simp] theorem good_ne_indeterminate {s t : Parsing} : good s ≠ indeterminate t := by
  simp [good, indeterminate]

@[simp] theorem good_inj {s t : Parsing} : good s = good t ↔ s = t := by
  simp [good]

@[simp] private theorem bad_ne_good {s t : Parsing} : bad s ≠ good t := by
  simp [bad, good]

@[simp] theorem indeterminate_ne_good {s t : Parsing} : indeterminate s ≠ good t := by
  simp [indeterminate, good]

def expectVersion (s : Parsing) (input c : UInt8) (st : State) : Consumed :=
  if input = c then indeterminate ((s.pushVersion input).goto st) else bad s

def expectDigit (s : Parsing) (input : UInt8) (st : State) : Consumed :=
  if isDigit input then indeterminate ((s.pushVersion input).goto st) else bad s

def expectNewline (s : Parsing) (input : UInt8) : Consumed :=
  if input = LF then indeterminate (s.goto .headerLineStart) else bad s

def consume (s : Parsing) (input : UInt8) : Consumed :=
  match s.parser.state with
  | .methodStart =>
      if !isToken input then bad s
      else indeterminate ((s.goto .method).pushMethod input)
  | .method =>
      if input = SP then indeterminate (s.goto .uri)
      else if !isToken input then bad s
      else indeterminate (s.pushMethod input)
  | .uri =>
      if input = SP then indeterminate (s.goto .httpVersionH)
      else if isCtl input then bad s
      else indeterminate (s.pushUri input)
  | .httpVersionH => expectVersion s input 'H'.toUInt8 .httpVersionT1
  | .httpVersionT1 => expectVersion s input 'T'.toUInt8 .httpVersionT2
  | .httpVersionT2 => expectVersion s input 'T'.toUInt8 .httpVersionP
  | .httpVersionP => expectVersion s input 'P'.toUInt8 .httpVersionSlash
  | .httpVersionSlash => expectVersion s input SLASH .httpVersionMajorStart
  | .httpVersionMajorStart => expectDigit s input .httpVersionMajor
  | .httpVersionMajor =>
      if input = DOT then indeterminate ((s.pushVersion input).goto .httpVersionMinorStart)
      else if isDigit input then indeterminate (s.pushVersion input)
      else bad s
  | .httpVersionMinorStart => expectDigit s input .httpVersionMinor
  | .httpVersionMinor =>
      if input = CR then indeterminate (s.goto .expectingNewline1)
      else if isDigit input then indeterminate (s.pushVersion input)
      else bad s
  | .expectingNewline1 => expectNewline s input
  | .headerLineStart =>
      if input = CR then indeterminate (s.goto .expectingNewline3)
      else if !s.request.headers.isEmpty && (input = SP || input = TAB) then
        indeterminate (s.goto .headerLws)
      else if !isToken input then bad s
      else
        match s.commitHeader with
        | .error e => .error e
        | .ok s => indeterminate ((s.clearHeader.pushKey input).goto .headerName)
  | .headerLws =>
      if input = CR then indeterminate (s.goto .expectingNewline2)
      else if input = SP || input = TAB then indeterminate s
      else if isCtl input then bad s
      else indeterminate ((s.goto .headerValue).pushVal input)
  | .headerName =>
      if input = COLON then indeterminate (s.goto .spaceBeforeHeaderValue)
      else if !isToken input then bad s
      else indeterminate (s.pushKey input)
  | .spaceBeforeHeaderValue =>
      if input = SP then indeterminate (s.goto .headerValue) else bad s
  | .headerValue =>
      if input = CR then indeterminate (s.goto .expectingNewline2)
      else if isCtl input then bad s
      else indeterminate (s.pushVal input)
  | .expectingNewline2 => expectNewline s input
  | .expectingNewline3 =>
      match s.commitHeader with
      | .error e => .error e
      | .ok s =>
          let s := if s.parser.headerKey = [] then s else s.clearHeader
          if input = LF then
            if s.parser.bodyLength = 0 then good s else indeterminate (s.goto .body)
          else bad s
  | .body =>
      let s := s.pushBody input
      if s.parser.bodyLength = 0 then good s else indeterminate s

theorem state_of_consume_good {s t : Parsing} {c : UInt8} (h : consume s c = good t) :
    s.parser.state = .expectingNewline3 ∨ s.parser.state = .body := by
  cases hs : s.parser.state with
  | expectingNewline3 => exact .inl rfl
  | body => exact .inr rfl
  | headerLineStart =>
      simp only [consume, hs] at h
      split_ifs at h
      · simp at h
      · simp at h
      · simp at h
      · split at h <;> simp [good, indeterminate] at h
  | _ =>
      simp only [consume, hs, expectVersion, expectDigit, expectNewline] at h
      split_ifs at h <;> simp at h

def methodOf (methodStr : Bytes) : Method :=
  if methodStr = lit "GET" then .GET
  else if methodStr = lit "POST" then .POST
  else if methodStr = lit "PUT" then .PUT
  else if methodStr = lit "HEAD" then .HEAD
  else .INVALID

def Parsing.setMethod (s : Parsing) : Parsing :=
  { s with request := { s.request with method := methodOf s.parser.methodStr } }

/-- The tuple `parse` returns, with the request and the parser as it leaves them.  Pointers
are offsets into the buffer. -/
structure ParseResult where
  result : ResultType
  begin : Nat
  bodyLength : Int
  parsing : Parsing
  deriving DecidableEq

/-- Read the bytes from `begin` to the end of the buffer.  A verdict is passed on only if
`body_length` more bytes are in the buffer. -/
def parse (s : Parsing) (begin : Nat) : Bytes → Except Fault ParseResult
  | [] => .ok ⟨.indeterminate, begin, s.parser.bodyLength, s⟩
  | c :: w =>
      match consume s c with
      | .error e => .error e
      | .ok (.indeterminate, t) => parse t (begin + 1) w
      | .ok (result, t) =>
          if t.parser.bodyLength ≤ w.length then
            .ok ⟨result, begin + 1, t.parser.bodyLength, t.setMethod⟩
          else
            .ok ⟨.indeterminate, begin + 1, t.parser.bodyLength, t.setMethod⟩

/-- Successive calls of `parse` on the buffers of a stream, up to the first fault. -/
def parseChunks (s : Parsing) : List Bytes → Except Fault (List ParseResult)
  | [] => .ok []
  | w :: ws =>
      match parse s 0 w with
      | .error e => .error e
      | .ok r =>
          match parseChunks r.parsing ws with
          | .error e => .error e
          | .ok rs => .ok (r :: rs)

/-- The byte machine behind `parse`: `consume` until its first verdict. -/
def machine : Machine Parsing UInt8 ResultType Fault := fun s c =>
  match consume s c with
  | .error e => .fault e
  | .ok (.indeterminate, t) => .next t
  | .ok (result, t) => .stop result t

theorem machine_next_iff {s t : Parsing} {c : UInt8} :
    machine s c = .next t ↔ consume s c = indeterminate t := by
  unfold machine indeterminate
  split <;> simp_all

theorem machine_stop_iff {s t : Parsing} {c : UInt8} {v : ResultType} :
    machine s c = .stop v t ↔ consume s c = .ok (v, t) ∧ v ≠ .indeterminate := by
  unfold machine
  split
  · simp_all
  · simp_all
  · simp_all
    rintro rfl rfl
    assumption

theorem machine_fault_iff {s : Parsing} {c : UInt8} {e : Fault} :
    machine s c = .fault e ↔ consume s c = .error e := by
  unfold machine
  split <;> simp_all

theorem parse_of_more {s t : Parsing} {w : Bytes} (h : feed machine s w = .more t)
    (begin : Nat) :
    parse s begin w = .ok ⟨.indeterminate, begin + w.length, t.parser.bodyLength, t⟩ := by
  induction w generalizing s begin with
  | nil =>
      injection h with h
      subst h
      rfl
  | cons c w ih =>
      cases hc : machine s c with
      | next u =>
          rw [feed_cons_next hc] at h
          rw [parse, machine_next_iff.mp hc, List.length_cons]
          simpa [indeterminate, Nat.add_assoc, Nat.add_comm 1] using ih h (begin + 1)
      | stop v u => simp [feed, hc] at h
      | fault e => simp [feed, hc] at h

theorem parse_of_done {s t : Parsing} {w rest : Bytes} {v : ResultType}
    (h : feed machine s w = .done v t rest) (begin : Nat) :
    parse s begin w = .ok
      ⟨if t.parser.bodyLength ≤ rest.length then v else .indeterminate,
        begin + (w.length - rest.length), t.parser.bodyLength, t.setMethod⟩ := by
  obtain ⟨as, c, s', rfl, ha, hc⟩ := feed_done_iff.mp h
  clear h
  obtain ⟨hc, hv⟩ := machine_stop_iff.mp hc
  induction as generalizing s begin with
  | nil =>
      injection ha with ha
      subst ha
      cases v with
      | indeterminate => exact absurd rfl hv
      | good =>
          simp only [List.nil_append, parse, hc, List.length_cons, Nat.add_sub_cancel_left]
          split <;> simp
      | bad =>
          simp only [List.nil_append, parse, hc, List.length_cons, Nat.add_sub_cancel_left]
          split <;> simp
  | cons a as ih =>
      cases hs : machine s a with
      | next u =>
          rw [feed_cons_next hs] at ha
          rw [List.cons_append, parse, machine_next_iff.mp hs]
          have tail := ih (begin + 1) ha
          simp only [indeterminate]
          rw [tail]
          simp only [List.length_append, List.length_cons]
          congr 2
          omega
      | stop q u => simp [feed, hs] at ha
      | fault e => simp [feed, hs] at ha

theorem parse_of_fault {s : Parsing} {w : Bytes} {e : Fault}
    (h : feed machine s w = .fault e) (begin : Nat) : parse s begin w = .error e := by
  induction w generalizing s begin with
  | nil => cases h
  | cons c w ih =>
      cases hc : machine s c with
      | next u =>
          rw [feed_cons_next hc] at h
          rw [parse, machine_next_iff.mp hc]
          exact ih h (begin + 1)
      | stop v u => simp [feed, hc] at h
      | fault f =>
          rw [feed_cons_fault hc] at h
          injection h with h
          subst h
          rw [parse, machine_fault_iff.mp hc]

theorem parse_verdict_inv {s : Parsing} {begin : Nat} {w : Bytes} {r : ParseResult}
    (h : parse s begin w = .ok r) (hv : r.result ≠ .indeterminate) :
    ∃ t rest, feed machine s w = .done r.result t rest ∧
      t.parser.bodyLength ≤ rest.length ∧
      r = ⟨r.result, begin + (w.length - rest.length), t.parser.bodyLength, t.setMethod⟩ := by
  cases hf : feed machine s w with
  | more t =>
      rw [parse_of_more hf] at h
      obtain rfl := Except.ok.inj h
      exact absurd rfl hv
  | fault e =>
      rw [parse_of_fault hf] at h
      cases h
  | done v t rest =>
      rw [parse_of_done hf] at h
      obtain rfl := Except.ok.inj h
      by_cases hle : t.parser.bodyLength ≤ rest.length
      · simp only [if_pos hle]
        exact ⟨t, rest, rfl, hle, rfl⟩
      · exact absurd (if_neg hle) hv

theorem parseChunks_of_done {s t : Parsing} {ws : List Bytes} {v : ResultType}
    (nonempty : ∀ w ∈ ws, w ≠ []) (h : feed machine s ws.flatten = .done v t [])
    (hlen : t.parser.bodyLength ≤ 0) :
    ∃ rs last, ws.getLast? = some last ∧
      parseChunks s ws = .ok (rs ++ [⟨v, last.length, t.parser.bodyLength, t.setMethod⟩]) ∧
      ∀ r ∈ rs, r.result = .indeterminate := by
  induction ws generalizing s with
  | nil => simp at h
  | cons w ws ih =>
      rw [List.flatten_cons, feed_append] at h
      cases hw : feed machine s w with
      | fault e => simp [hw, Outcome.resume] at h
      | done v' t' rest =>
          simp only [hw, Outcome.resume, Outcome.done.injEq, List.append_eq_nil_iff] at h
          obtain ⟨rfl, rfl, rfl, hflat⟩ := h
          have hnil : ws = [] := by
            cases ws with
            | nil => rfl
            | cons w' ws => simp_all
          subst hnil
          refine ⟨[], w, rfl, ?_, by simp⟩
          simp [parseChunks, parse_of_done hw, hlen]
      | more u =>
          rw [hw, Outcome.resume] at h
          obtain ⟨rs, last, hlast, hrun, hind⟩ :=
            ih (fun w' hw' => nonempty w' (by simp [hw'])) h
          refine ⟨⟨.indeterminate, w.length, u.parser.bodyLength, u⟩ :: rs, last, ?_, ?_, ?_⟩
          · rw [List.getLast?_cons, hlast, Option.getD_some]
          · simp only [parseChunks, parse_of_more hw, hrun, List.cons_append, Nat.zero_add]
          · intro r hr
            rcases List.mem_cons.mp hr with rfl | hr
            · rfl
            · exact hind r hr

end Wnza.Http.Parser
