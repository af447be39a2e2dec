/- GID: Wnza/Handler/ReverseProxy
   generality: I
   source: include/reverse_proxy_request_handler.h, src/reverse_proxy_request_handler.cc
   digest: The request that the proxy sends, and what a request parser makes of it. -/

import Wnza.Handler.Basic
import Wnza.Http.Invariant

set_option autoImplicit false
set_option relaxedAutoImplicit false

namespace Wnza.Handler.ReverseProxy

open Wnza.Foundation.Feed
open Wnza.Http.Text
open Wnza.Http.Parser
open Wnza.Http.Grammar
open Wnza.Http.Moves
open Wnza.Http.Invariant
open Wnza.Handler.Basic

structure Url where
  host : Bytes
  path : Bytes
  query : Bytes

/-- The array of method names is read past its end for `INVALID`. -/
def requestToString (req : Request) : Except Fault Bytes :=
  match methodName req.method with
  | none => .error .undefinedBehaviour
  | some name => .ok (requestHead name req ++ (req.body ++ lit "\r\n") ++ lit "\r\n")

def getProxyRequest (req : Request) (dest : Url) : Request where
  method := req.method
  version := lit "HTTP/1.0"
  uri := dest.path ++ dest.query
  headers := ((req.headers.erase (lit "Connection")).insert
    (lit "Accept-Encoding") (lit "*/*")).insert (lit "Host") dest.host
  body := req.body

/-- A fresh parser reads the message to its end as the request it was written from. -/
def ReadBack (req : Request) : Prop :=
  ∃ text res, requestToString req = .ok text ∧ parse .fresh 0 text = .ok res ∧
    res.result = .good ∧ res.begin = text.length ∧ res.parsing.request = req

private theorem next_of_feed_good {s t : Parsing} {c : UInt8} {w : Bytes} (hw : w ≠ [])
    (h : feed machine s (c :: w) = .done .good t []) :
    ∃ u, Move s c .indeterminate u ∧ feed machine u w = .done .good t [] := by
  cases hc : machine s c with
  | next u =>
      rw [feed_cons_next hc] at h
      exact ⟨u, consume_move (machine_next_iff.mp hc), h⟩
  | stop v u =>
      rw [feed_cons_stop hc] at h
      injection h with _ _ hrest
      exact absurd hrest hw
  | fault e =>
      rw [feed_cons_fault hc] at h
      cases h

private theorem feed_lineStart_ne_good {s t : Parsing} {w : Bytes}
    (hs : s.parser.state = .headerLineStart) (hb : s.request.body = [])
    (hlen : w.length = t.request.body.length + 4) :
    feed machine s w ≠ .done .good t [] := by
  intro h
  obtain ⟨c, d, e, w, rfl⟩ : ∃ c d e w', w = c :: d :: e :: w' := by
    match w, hlen with
    | c :: d :: e :: w', _ => exact ⟨c, d, e, w', rfl⟩
  simp only [List.length_cons] at hlen
  obtain ⟨u, first, hu⟩ := next_of_feed_good (by simp) h
  have bound := headBytes_feed hu
  simp only [List.length_cons] at bound
  obtain rfl | rfl | ⟨v, commit, rfl⟩ := first.lineStart_inv hs
  · -- the blank line: the bytes behind its line feed are the body, one too many
    obtain ⟨r, second, hr⟩ := next_of_feed_good (by simp) hu
    obtain ⟨v, r, commit, committed, rfl⟩ := second.blankLine_inv rfl
    have stored := congrArg List.length (feed_done_body rfl hr)
    have empty := (commitEnd_body commit committed).trans hb
    simp only [Parsing.goto, List.length_append, empty, List.length_nil,
      List.length_cons] at stored
    omega
  · -- a continuation line: four more bytes, at least, to the end of the head
    simp only [Parsing.goto, headBytes, hb, List.length_nil] at bound
    omega
  · -- another header line: six more, at least
    have empty := (commitHeader_body commit).trans hb
    simp only [Parsing.goto, Parsing.pushKey, Parsing.clearHeader, headBytes, empty,
      List.length_nil] at bound
    omega

private theorem not_readBack {req : Request} (hv : req.version = lit "HTTP/1.0") :
    ¬ ReadBack req := by
  rintro ⟨text, res, written, parsed, hgood, hend, rfl⟩
  obtain ⟨t, rest, run, -, hres⟩ := parse_verdict_inv parsed (by simp [hgood])
  have hrest : rest = [] := by
    obtain ⟨as, b, -, rfl, -⟩ := feed_done_iff.mp run
    rw [hres] at hend
    simp only [List.length_append, List.length_cons, Nat.zero_add] at hend
    exact List.length_eq_zero_iff.mp (by omega)
  rw [hgood, hrest] at run
  have request : res.parsing.request = t.setMethod.request := by rw [hres]
  have clean : Clean t.setMethod := (Clean.fresh.feed_done run).setMethod
  cases hname : methodName res.parsing.request.method with
  | none => simp [requestToString, hname] at written
  | some name =>
      simp only [requestToString, hname, Except.ok.injEq] at written
      rw [request] at hv written
      let l : RequestLine := ⟨name, t.setMethod.request.uri, lit "1", lit "0",
        (methodName_spec hname).1, clean.uri, by decide, by decide⟩
      rw [requestHead_eq_head l t.setMethod.request rfl hv] at written
      rw [← written, List.append_assoc, List.append_assoc,
        feed_append_of_more (feed_head l clean.headers clean.lengths)] at run
      refine feed_lineStart_ne_good (by simp) rfl ?_ run
      have line : (lit "\r\n").length = 2 := by decide
      simp only [List.length_append, line]
      rfl

/-- The proxy's outgoing message is not a faithful request, whatever the client sent and
wherever it goes. -/
theorem proxy_request_not_readBack (req : Request) (dest : Url) :
    ¬ ReadBack (getProxyRequest req dest) :=
  not_readBack rfl

/-- A plain request on its way to another host: the parser reports good two bytes before the
end of the message. -/
theorem proxy_request_leaves_line_end :
    ∃ res, parse .fresh 0 (lit "GET /p/ HTTP/1.1\r\n\r\n") = .ok res ∧ res.result = .good ∧
      res.parsing.request.method ≠ .INVALID ∧
      requestToString (getProxyRequest res.parsing.request ⟨lit "upstream", lit "/", []⟩) =
        .ok (lit "GET / HTTP/1.0\r\nAccept-Encoding: */*\r\nHost: upstream\r\n\r\n\r\n") ∧
      ¬ ReadBack (getProxyRequest res.parsing.request ⟨lit "upstream", lit "/", []⟩) := by
  have text : requestToString (getProxyRequest ⟨.GET, lit "/p/", lit "HTTP/1.1", ∅, []⟩
      ⟨lit "upstream", lit "/", []⟩) =
        .ok (lit "GET / HTTP/1.0\r\nAccept-Encoding: */*\r\nHost: upstream\r\n\r\n\r\n") := by
    decide
  refine ⟨_, rfl, rfl, by decide, text, ?_⟩
  rintro ⟨text', res, written, parsed, -, hend, -⟩
  obtain rfl := Except.ok.inj (text.symm.trans written)
  have stopped : (parse .fresh 0 (lit
      "GET / HTTP/1.0\r\nAccept-Encoding: */*\r\nHost: upstream\r\n\r\n\r\n")).map
        ParseResult.begin = .ok 56 := by
    decide
  rw [parsed] at stopped
  rw [Except.ok.inj stopped] at hend
  revert hend
  decide

end Wnza.Handler.ReverseProxy
