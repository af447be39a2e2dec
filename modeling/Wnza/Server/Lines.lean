/- GID: Wnza/Server/Lines
   generality: I
   source: src/request_parser.cc, src/echo_request_handler.cc,
     src/reverse_proxy_request_handler.cc, src/log_helper.cc
   digest: What the server writes from a request keeps its lines apart. -/

import Wnza.Handler.Echo
import Wnza.Handler.ProxyReading
import Wnza.Server.StatusPage

set_option autoImplicit false
set_option relaxedAutoImplicit false

namespace Wnza.Server.Lines

open Wnza.Foundation.Substring
open Wnza.Http.Text
open Wnza.Http.Parser
open Wnza.Http.Grammar
open Wnza.Http.Reach
open Wnza.Handler.Basic
open Wnza.Handler.Echo
open Wnza.Handler.ProxyReading
open Wnza.Handler.ProxyTarget
open Wnza.Handler.ReverseProxy
open Wnza.Handler.Static
open Wnza.Session.Deliveries
open Wnza.Server.LogHelper
open Wnza.Server.StatusPage
open Wnza.Server.Table (handlerNames)

/-- The text is one line. -/
def OneLine (w : Bytes) : Prop := CR ∉ w ∧ LF ∉ w

private theorem oneLine_of_isValue {w : Bytes} (h : IsValue w) : OneLine w :=
  ⟨h.ctl_not_mem (by decide), h.ctl_not_mem (by decide)⟩

def requestLine (name : Bytes) (req : Request) : Bytes :=
  name ++ lit " " ++ req.uri ++ lit " " ++ req.version

def entryLine (h : Header) : Bytes := h.1 ++ lit ": " ++ h.2

def headLines (name : Bytes) (req : Request) : List Bytes :=
  requestLine name req :: req.headers.toList.map entryLine

def ended (lines : List Bytes) : Bytes := lines.flatMap (fun line => line ++ lit "\r\n")

private theorem requestHead_eq_ended (name : Bytes) (req : Request) :
    requestHead name req = ended (headLines name req) := by
  simp only [requestHead, ended, headLines, requestLine, List.flatMap_cons, List.flatMap_map]
  rfl

/-- The URI that `handle_request` of the proxy asks for. -/
def proxiedUri (prefixUri uri : Bytes) (index : Nat) : Bytes :=
  let rest := uri.drop (index + prefixUri.length - 1)
  if rest ≠ lit "/" then rest.dropLast else rest

private theorem handleRequest_of_find {net : Network} {h : ReverseProxyRequestHandler} {w : World}
    {req : Request} {uri : Bytes} {index : Nat} (target : h.host ≠ [] ∧ h.path ≠ [])
    (slash : ensureSlash req.uri = .ok uri) (found : find h.prefixUri uri = some index) (n : Nat) :
    handleRequest net h w n req = sendRequest net h w n
      (getProxyRequest req ⟨h.host, proxiedUri h.prefixUri uri index, []⟩) h.host := by
  rw [handleRequest, if_neg (not_or.mpr target), slash]
  simp only [found]
  rfl

/-- Every request or header line that is written from the request is one line: in the body of an
echo, in a request of the proxy to any host, except for what the host itself puts into it, and in
the log. -/
structure OneLined (req : Request) : Prop where
  echoed : ∀ name, methodName req.method = some name →
    echoText name req = ended (headLines name req) ++ lit "\r\n" ++ req.body ∧
      ∀ line ∈ headLines name req, OneLine line
  asked : ∀ prefixUri uri index, ensureSlash req.uri = .ok uri →
    OneLine (proxiedUri prefixUri uri index)
  sent : ∀ net (h : ReverseProxyRequestHandler) w n uri index, h.host ≠ [] ∧ h.path ≠ [] →
    ensureSlash req.uri = .ok uri → find h.prefixUri uri = some index →
      handleRequest net h w n req = sendRequest net h w n
        (getProxyRequest req ⟨h.host, proxiedUri h.prefixUri uri index, []⟩) h.host
  forwarded : ∀ name dest, methodName req.method = some name → OneLine (dest.path ++ dest.query) →
    requestToString (getProxyRequest req dest) =
        .ok (ended (headLines name (getProxyRequest req dest)) ++ (req.body ++ lit "\r\n") ++
          lit "\r\n") ∧
      ∀ line ∈ headLines name (getProxyRequest req dest),
        OneLine line ∨ line = entryLine (lit "Host", dest.host)
  logged : ∀ peer, OneLine (LogCall.requestInfo req peer).message
  measured : ∀ code peer, ∀ handlerName ∈ handlerNames,
    OneLine (LogCall.metrics req code peer handlerName).message

section Pieces

variable {req : Request} {name : Bytes}

private theorem isValue_methodName {m : Method} (h : methodName m = some name) : IsValue name :=
  isValue_of_tokens (methodName_spec h).1.2

private theorem isValue_entryLine {h : Header} (token : IsTokenWord h.1) (value : IsValue h.2) :
    IsValue (entryLine h) := by
  have colon : IsValue (lit ": ") := by decide
  simp only [entryLine, isValue_append]
  exact ⟨⟨isValue_of_tokens token.2, colon⟩, value⟩

private theorem isValue_ensureSlash {text uri : Bytes} (h : ensureSlash text = .ok uri)
    (plain : IsUri text) : IsValue uri := by
  have slash : IsValue (lit "/") := by decide
  unfold ensureSlash at h
  split_ifs at h
  · obtain rfl := Except.ok.inj h
    exact plain.isValue
  · obtain rfl := Except.ok.inj h
    exact isValue_append.mpr ⟨plain.isValue, slash⟩

private theorem isValue_proxiedUri {prefixUri uri : Bytes} (index : Nat) (h : IsValue uri) :
    IsValue (proxiedUri prefixUri uri index) := by
  intro c hc
  apply h
  simp only [proxiedUri] at hc
  split_ifs at hc
  · exact List.mem_of_mem_drop (List.mem_of_mem_dropLast hc)
  · exact List.mem_of_mem_drop hc

private theorem getProxyRequest_headers {dest : Url} {h : Header}
    (hh : h ∈ (getProxyRequest req dest).headers.toList) :
    h ∈ req.headers.toList ∨ h = (lit "Accept-Encoding", lit "*/*") ∨
      h = (lit "Host", dest.host) := by
  obtain ⟨k, v⟩ := h
  rw [Std.ExtTreeMap.mem_toList_iff_getElem?_eq_some] at hh ⊢
  simp only [getProxyRequest, Std.ExtTreeMap.getElem?_insert, Std.ExtTreeMap.getElem?_erase,
    Std.LawfulEqCmp.compare_eq_iff_eq] at hh
  split_ifs at hh with host encoding
  · right
    right
    rw [host, Option.some.inj hh]
  · right
    left
    rw [encoding, Option.some.inj hh]
  · left
    exact hh

private theorem oneLine_append {v w : Bytes} : OneLine (v ++ w) ↔ OneLine v ∧ OneLine w := by
  simp only [OneLine, List.mem_append, not_or]
  tauto

end Pieces

private theorem oneLined_of_controlFree {s : Parsing} (h : ControlFree s) : OneLined s.request := by
  have lines : HeaderLines s.request.headers.toList := fun e he => ⟨h.names e he, h.values e he⟩
  have plain : Plain s.request := ⟨h.uri, lines⟩
  have entries : ∀ e ∈ s.request.headers.toList, IsValue (entryLine e) :=
    fun e he => isValue_entryLine (h.names e he) (h.values e he)
  have space : IsValue (lit " ") := by decide
  constructor
  · intro name hname
    refine ⟨by rw [echoText, requestHead_eq_ended], fun line hline => ?_⟩
    rcases List.mem_cons.mp hline with rfl | hline
    · obtain ⟨a, b, ha, hb, hversion⟩ := h.version
      have version : IsValue s.request.version := by
        intro c hc
        have http : IsValue (lit "HTTP/") := by decide
        have dot : IsValue [DOT] := by decide
        have whole : IsValue (lit "HTTP/" ++ a ++ ([DOT] ++ b)) := by
          simp only [isValue_append, http, dot, ha.isValue, hb.isValue, and_self]
        exact whole c (hversion.subset hc)
      apply oneLine_of_isValue
      simp only [requestLine, isValue_append, isValue_methodName hname, space, plain.uri.isValue,
        version, and_self]
    · obtain ⟨e, he, rfl⟩ := List.mem_map.mp hline
      exact oneLine_of_isValue (entries e he)
  · intro prefixUri uri index slash
    exact oneLine_of_isValue (isValue_proxiedUri index (isValue_ensureSlash slash plain.uri))
  · intro net h w n uri index target slash found
    exact handleRequest_of_find target slash found n
  · intro name dest hname target
    have method : (getProxyRequest s.request dest).method = s.request.method := rfl
    refine ⟨by simp only [requestToString, method, hname, requestHead_eq_ended]; rfl, ?_⟩
    intro line hline
    rcases List.mem_cons.mp hline with rfl | hline
    · left
      have version : IsValue (lit "HTTP/1.0") := by decide
      simp only [requestLine, oneLine_append, getProxyRequest]
      exact ⟨⟨⟨⟨oneLine_of_isValue (isValue_methodName hname), oneLine_of_isValue space⟩,
        oneLine_append.mp target⟩, oneLine_of_isValue space⟩, oneLine_of_isValue version⟩
    · obtain ⟨e, he, rfl⟩ := List.mem_map.mp hline
      rcases getProxyRequest_headers he with he | rfl | rfl
      · exact .inl (oneLine_of_isValue (entries e he))
      · left
        have encoding : IsValue (entryLine (lit "Accept-Encoding", lit "*/*")) := by decide
        exact oneLine_of_isValue encoding
      · exact .inr rfl
  · intro peer
    exact oneLine_of_isValue (isValue_requestInfo plain peer)
  · intro code peer handlerName known
    exact oneLine_of_isValue (isValue_metrics plain code peer known)

/-- No control byte gets past the parser, whatever the bytes and the verdicts on them, and what
is written from a request keeps its lines apart. -/
theorem control_bytes_held_back {s : Parsing} (reachable : Reachable s) :
    ControlFree s ∧ OneLined s.request :=
  ⟨reachable.controlFree, oneLined_of_controlFree reachable.controlFree⟩

/-- A rejected byte, and a parser that goes on behind it without a reset. -/
theorem control_bytes_held_back_after_bad :
    ∃ s, Reachable s ∧ s.request.uri = lit "/ab" ∧ s.parser.state = .headerLineStart ∧
      s.parser.headerVal = lit "y" ∧ ControlFree s ∧ OneLined s.request := by
  have first := Reaches.start.parse (C := fun _ _ => True) (fun _ _ => trivial)
    (show parse .fresh 0 (lit "GET /a\n") = .ok _ from rfl)
  have second := first.parse (fun _ _ => trivial)
    (show parse _ 0 (lit "b HTTP/1.1\r\nX: y\r\n") = .ok _ from rfl)
  obtain ⟨free, lined⟩ := control_bytes_held_back second
  exact ⟨_, second, rfl, rfl, rfl, free, lined⟩

end Wnza.Server.Lines
