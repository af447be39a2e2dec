/- GID: Wnza/Server/Chaining
   generality: I
   source: src/reverse_proxy_request_handler.cc (request_to_string), src/session.cc (received_req)
   digest: Servers that are chained by their proxies: what one of them makes of what another
     sends. -/

import Wnza.Handler.Echo
import Wnza.Handler.Hops
import Wnza.Session.Framing
import Wnza.Session.Termination

set_option autoImplicit false
set_option relaxedAutoImplicit false

namespace Wnza.Server.Chaining

open Wnza.Foundation.Feed
open Wnza.Foundation.DoWhile
open Wnza.Foundation.FirstInsert
open Wnza.Http.Text
open Wnza.Http.Parser
open Wnza.Http.Grammar
open Wnza.Handler.Basic
open Wnza.Handler.Echo
open Wnza.Handler.Hops
open Wnza.Handler.ProxyReading (Network)
open Wnza.Handler.ProxyTarget
open Wnza.Handler.ReverseProxy
open Wnza.Session.Receive
open Wnza.Session.Framing

def withMethod (x : Method) (s : Parsing) : Parsing :=
  { s with request := { s.request with method := x } }

section Methods

variable {x : Method} {s t : Parsing} {c : UInt8} {w rest : Bytes} {v : ResultType}

private theorem commitHeader_withMethod (x : Method) (s : Parsing) :
    (withMethod x s).commitHeader = s.commitHeader.map (withMethod x) := by
  have parser : (withMethod x s).parser = s.parser := rfl
  unfold Parsing.commitHeader
  by_cases hkey : s.parser.headerKey = []
  · simp only [parser, if_pos hkey]
    rfl
  · by_cases hlength : s.parser.headerKey = lit "Content-Length"
    · simp only [parser, if_neg hkey, if_pos hlength]
      cases stoi s.parser.headerVal <;> rfl
    · simp only [parser, if_neg hkey, if_neg hlength]
      rfl

private theorem consume_withMethod (x : Method) (s : Parsing) (c : UInt8) :
    consume (withMethod x s) c = (consume s c).map (fun r => (r.1, withMethod x r.2)) := by
  have parser : ∀ t, (withMethod x t).parser = t.parser := fun _ => rfl
  have headers : (withMethod x s).request.headers = s.request.headers := rfl
  cases hs : s.parser.state with
  | headerLineStart =>
      simp only [consume, parser, headers, hs, commitHeader_withMethod]
      split_ifs
      · rfl
      · rfl
      · rfl
      · cases s.commitHeader <;> rfl
  | expectingNewline3 =>
      have cleared : ∀ t : Parsing, (withMethod x t).clearHeader = withMethod x t.clearHeader :=
        fun _ => rfl
      simp only [consume, parser, hs, commitHeader_withMethod]
      cases s.commitHeader with
      | error e => rfl
      | ok t =>
          simp only [Except.map, parser, cleared, ← apply_ite (withMethod x)]
          split_ifs <;> rfl
  | body =>
      have pushed : (withMethod x s).pushBody c = withMethod x (s.pushBody c) := rfl
      simp only [consume, parser, hs, pushed]
      split_ifs <;> rfl
  | _ =>
      simp only [consume, parser, hs, expectVersion, expectDigit, expectNewline]
      split_ifs <;> rfl

private theorem feed_withMethod (x : Method) (h : feed machine s w = .done v t rest) :
    feed machine (withMethod x s) w = .done v (withMethod x t) rest := by
  induction w generalizing s with
  | nil => cases h
  | cons c w ih =>
      have same := consume_withMethod x s c
      cases hc : machine s c with
      | next u =>
          rw [machine_next_iff.mp hc] at same
          rw [feed_cons_next hc] at h
          rw [feed_cons_next (machine_next_iff.mpr same)]
          exact ih h
      | stop r u =>
          obtain ⟨consumed, verdict⟩ := machine_stop_iff.mp hc
          rw [consumed] at same
          rw [feed_cons_stop hc] at h
          obtain ⟨rfl, rfl, rfl⟩ := Outcome.done.inj h
          exact feed_cons_stop (machine_stop_iff.mpr ⟨same, verdict⟩) w
      | fault e =>
          rw [feed_cons_fault hc] at h
          cases h

private theorem receivePass_trailing (m : Message) (x : Method) :
    receivePass (m.encode ++ crlf) (withMethod x .fresh) =
      .again [delivered m] (withMethod .INVALID .fresh) := by
  have whole : feed machine .fresh (m.encode ++ crlf) = .done .good m.final crlf := by
    rw [feed_append, feed_encode, Outcome.resume, List.nil_append]
  have zero : (withMethod x m.final).parser.bodyLength = 0 := rfl
  have behind : feed machine .fresh crlf = .done .bad .fresh [LF] := rfl
  rw [receivePass_of_done (feed_withMethod x whole) (by rw [zero])
    (by rw [zero]; exact Int.natCast_nonneg _), zero, Int.toNat_zero, List.drop_zero, behind]
  rfl

private theorem not_ends_trailing (m : Message) (out : List Delivery) (e : Ending Parsing Fault) :
    ¬ Ends (receivePass (m.encode ++ crlf)) .fresh out e := by
  refine not_ends_of_again (P := fun s => ∃ x, s = withMethod x .fresh) ?_ ⟨.GET, rfl⟩ out e
  rintro s ⟨x, rfl⟩
  exact ⟨_, _, receivePass_trailing m x, .INVALID, rfl⟩

end Methods

section Relayed

variable {m : Message} {place : Url} {name value : Bytes}

private theorem mem_of_headers (entry : m.request.headers[name]? = some value) :
    (name, value) ∈ m.headers := by
  rw [Message.request, getElem?_insertFirst, Std.ExtTreeMap.getElem?_empty, Option.none_or,
    firstValue, Option.map_eq_some_iff] at entry
  obtain ⟨⟨k, v⟩, found, rfl⟩ := entry
  obtain rfl : k = name := by simpa using List.find?_some found
  exact List.mem_of_find?_eq_some found

private theorem length_entry (single : SingleLength m) :
    m.request.headers[contentLength]? = lastLength m.headers := by
  rw [Message.request, getElem?_insertFirst, Std.ExtTreeMap.getElem?_empty, Option.none_or,
    firstValue, lastLength, ← List.head?_filter]
  unfold SingleLength at single
  generalize m.headers.filter (fun h => h.1 = contentLength) = lines at single
  cases lines with
  | nil => rfl
  | cons h rest =>
      obtain rfl : rest = [] := List.length_eq_zero_iff.mp (by simpa using single)
      rfl

private theorem proxied_length :
    (getProxyRequest m.request place).headers[contentLength]? =
      m.request.headers[contentLength]? :=
  carries_getProxyRequest.others contentLength (by decide) (by decide) (by decide)

private theorem proxied_lines (host : IsValue place.host) :
    HeaderLines (getProxyRequest m.request place).headers.toList := by
  rintro ⟨k, v⟩ hmem
  have entry := Std.ExtTreeMap.mem_toList_iff_getElem?_eq_some.mp hmem
  rw [getElem?_proxied] at entry
  split_ifs at entry with hhost hencoding
  · obtain rfl := Option.some.inj entry
    have token : IsTokenWord (lit "Host") := by decide
    exact ⟨by rw [hhost]; exact token, host⟩
  · obtain rfl := Option.some.inj entry
    have token : IsTokenWord (lit "Accept-Encoding") := by decide
    have value : IsValue (lit "*/*") := by decide
    exact ⟨by rw [hencoding]; exact token, value⟩
  · exact m.header_lines _ (mem_of_headers entry)

private theorem digits_one : IsDigits (lit "1") := by decide

private theorem digits_zero : IsDigits (lit "0") := by decide

private theorem proxied_accepted :
    LengthsAccepted (getProxyRequest m.request place).headers.toList := by
  rintro ⟨k, v⟩ hmem hk
  have entry := Std.ExtTreeMap.mem_toList_iff_getElem?_eq_some.mp hmem
  obtain rfl : k = contentLength := hk
  rw [proxied_length] at entry
  exact m.lengths_accepted _ (mem_of_headers entry) rfl

private theorem proxied_declared (single : SingleLength m) (empty : m.body = []) :
    declaredLength (getProxyRequest m.request place).headers.toList = .ok 0 := by
  have declared := m.body_declared
  rw [declaredLength, ← length_entry single, ← @proxied_length m place,
    ← lastLength_toList, empty] at declared
  exact declared

def relayed (m : Message) (place : Url) (name : Bytes) (token : IsTokenWord name)
    (target : IsUri (place.path ++ place.query)) (host : IsValue place.host)
    (single : SingleLength m) (empty : m.body = []) : Message where
  line := ⟨name, place.path ++ place.query, lit "1", lit "0", token, target, digits_one,
    digits_zero⟩
  headers := (getProxyRequest m.request place).headers.toList
  body := []
  header_lines := proxied_lines host
  lengths_accepted := proxied_accepted
  body_declared := proxied_declared single empty

private theorem requestToString_relayed (token : IsTokenWord name)
    (written : methodName m.request.method = some name)
    (target : IsUri (place.path ++ place.query)) (host : IsValue place.host)
    (single : SingleLength m) (empty : m.body = []) :
    requestToString (getProxyRequest m.request place) =
      .ok ((relayed m place name token target host single empty).encode ++ crlf) := by
  have method : (getProxyRequest m.request place).method = m.request.method := rfl
  have body : (getProxyRequest m.request place).body = [] := empty
  have line : lit "\r\n" = crlf := by decide
  simp only [requestToString, method, written, body, List.nil_append, line]
  have head := requestHead_eq_head (relayed m place name token target host single empty).line
    (getProxyRequest m.request place) rfl rfl
  simp only [relayed] at head
  simp only [head, Message.encode, relayed, List.append_nil]

end Relayed

/-- Whatever request without a body the proxy passes on, however often it is redirected: a server
of this kind that gets it in one piece never returns from its receive loop. -/
theorem relayed_request_never_ends (net : Network) (h : ReverseProxyRequestHandler) (w : World)
    (n : Nat) (m : Message) (valid : m.request.method ≠ .INVALID) (single : SingleLength m)
    (empty : m.body = []) (host : Bytes) (hop : Request)
    (asked : (host, hop) ∈ asks net h w n m.request) (target : IsUri hop.uri)
    (plain : IsValue host) :
    ∃ text, requestToString hop = .ok text ∧
      ∀ out e, ¬ Ends (receivePass text) .fresh out e := by
  obtain ⟨place, rfl, rfl⟩ := mem_asks asked
  obtain ⟨name, written⟩ := exists_methodName valid
  exact ⟨_, requestToString_relayed (methodName_spec written).1 written target plain single empty,
    not_ends_trailing _⟩

theorem relayed_request_never_ends_root :
    ∃ hop text, (lit "upstream", hop) ∈ asks (fun _ _ => none)
        ⟨lit "/", lit "http://upstream/", lit "80", lit "upstream", lit "/"⟩ ⟨fun _ => none, []⟩ 1
        rootRequest.request ∧
      requestToString hop = .ok text ∧ ∀ out e, ¬ Ends (receivePass text) .fresh out e := by
  have asked : asks (fun _ _ => none)
      ⟨lit "/", lit "http://upstream/", lit "80", lit "upstream", lit "/"⟩ ⟨fun _ => none, []⟩ 1
      rootRequest.request = [(lit "upstream", getProxyRequest rootRequest.request
        ⟨lit "upstream", lit "/", []⟩)] := rfl
  have mem : (lit "upstream", getProxyRequest rootRequest.request ⟨lit "upstream", lit "/", []⟩) ∈
      asks (fun _ _ => none) ⟨lit "/", lit "http://upstream/", lit "80", lit "upstream", lit "/"⟩
        ⟨fun _ => none, []⟩ 1 rootRequest.request := by
    rw [asked]
    exact List.mem_cons_self
  obtain ⟨text, written, endless⟩ := relayed_request_never_ends _ _ _ _ rootRequest (by decide)
    (by simp [SingleLength, rootRequest]) rfl _ _ mem (by decide) (by decide)
  exact ⟨_, text, mem, written, endless⟩

end Wnza.Server.Chaining
