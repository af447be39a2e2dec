/- GID: Wnza/Handler/Hops
   generality: I
   source: src/reverse_proxy_request_handler.cc (handle_request, send_request, handle_redirect,
     get_proxy_request)
   digest: The requests that the proxy sends while it follows redirections. -/

import Wnza.Handler.ProxyReading

set_option autoImplicit false
set_option relaxedAutoImplicit false

namespace Wnza.Handler.Hops

open Wnza.Foundation.Substring
open Wnza.Http.Text
open Wnza.Http.Parser
open Wnza.Handler.Basic
open Wnza.Handler.Basic.Response
open Wnza.Handler.ProxyReading
open Wnza.Handler.ProxyTarget
open Wnza.Handler.ReverseProxy
open Wnza.Handler.Static

/-- The requests that `send_request` sends, with the hosts that get them, one for each
redirection. -/
def sends (net : Network) (h : ReverseProxyRequestHandler) (w : World) :
    Nat → Request → Bytes → List (Bytes × Request)
  | 0, _, _ => []
  | n + 1, req, host =>
      match requestToString req with
      | .error _ => []
      | .ok _ => (host, req) ::
          match net host req with
          | none => []
          | some segments =>
              match readResponse w h.prefixUri segments with
              | .error _ => []
              | .ok (.respond _) => []
              | .ok (.redirect location) =>
                  let redirLoc := redirectUrl location
                  if redirLoc.host = host ∧ redirLoc.path = req.uri then []
                  else sends net h w n (getProxyRequest req redirLoc) redirLoc.host

theorem sends_succ (net : Network) (h : ReverseProxyRequestHandler) (w : World) (n : Nat)
    (req : Request) (host : Bytes) :
    sends net h w (n + 1) req host =
      match requestToString req with
      | .error _ => []
      | .ok _ => (host, req) ::
          match net host req with
          | none => []
          | some segments =>
              match readResponse w h.prefixUri segments with
              | .error _ => []
              | .ok (.respond _) => []
              | .ok (.redirect location) =>
                  if (redirectUrl location).host = host ∧ (redirectUrl location).path = req.uri then
                    []
                  else
                    sends net h w n (getProxyRequest req (redirectUrl location))
                      (redirectUrl location).host := by
  rfl

/-- The requests that `handle_request` sends. -/
def asks (net : Network) (h : ReverseProxyRequestHandler) (w : World) (n : Nat) (req : Request) :
    List (Bytes × Request) :=
  if h.host = [] ∨ h.path = [] then []
  else
    match ensureSlash req.uri with
    | .error _ => []
    | .ok uri =>
        match find h.prefixUri uri with
        | none => []
        | some index =>
            let rest := uri.drop (index + h.prefixUri.length - 1)
            let newUri := if rest ≠ lit "/" then rest.dropLast else rest
            sends net h w n (getProxyRequest req ⟨h.host, newUri, []⟩) h.host

/-- A request on its way to a host: what the client sent, with the version, the target and three
header lines replaced. -/
structure Carries (req : Request) (host : Bytes) (hop : Request) : Prop where
  method : hop.method = req.method
  body : hop.body = req.body
  version : hop.version = lit "HTTP/1.0"
  addressed : hop.headers[lit "Host"]? = some host
  encoding : hop.headers[lit "Accept-Encoding"]? = some (lit "*/*")
  connection : hop.headers[lit "Connection"]? = none
  others : ∀ name, name ≠ lit "Host" → name ≠ lit "Accept-Encoding" → name ≠ lit "Connection" →
    hop.headers[name]? = req.headers[name]?

section Requests

variable {req : Request} {dest next : Url}

theorem getElem?_proxied (name : Bytes) :
    (getProxyRequest req dest).headers[name]? =
      if name = lit "Host" then some dest.host
      else if name = lit "Accept-Encoding" then some (lit "*/*")
      else if name = lit "Connection" then none
      else req.headers[name]? := by
  simp only [getProxyRequest, Std.ExtTreeMap.getElem?_insert, Std.ExtTreeMap.getElem?_erase,
    Std.compare_eq_iff_eq, @eq_comm Bytes name]

private theorem getProxyRequest_again :
    getProxyRequest (getProxyRequest req dest) next = getProxyRequest req next := by
  have headers : (getProxyRequest (getProxyRequest req dest) next).headers =
      (getProxyRequest req next).headers := by
    apply Std.ExtTreeMap.ext_getElem?
    intro name
    rw [getElem?_proxied, getElem?_proxied, getElem?_proxied]
    split_ifs <;> rfl
  simpa only [getProxyRequest, Request.mk.injEq, true_and, and_true] using headers

theorem carries_getProxyRequest : Carries req dest.host (getProxyRequest req dest) := by
  refine ⟨rfl, rfl, rfl, ?_, ?_, ?_, ?_⟩
  · rw [getElem?_proxied, if_pos rfl]
  · rw [getElem?_proxied, if_neg (by decide), if_pos rfl]
  · rw [getElem?_proxied, if_neg (by decide), if_neg (by decide), if_pos rfl]
  · intro name host encoding connection
    rw [getElem?_proxied, if_neg host, if_neg encoding, if_neg connection]

end Requests

section Chains

variable {net net' : Network} {h : ReverseProxyRequestHandler} {w : World} {req : Request}

private theorem mem_sends {n : Nat} {dest : Url} {v : Bytes × Request}
    (sent : v ∈ sends net h w n (getProxyRequest req dest) dest.host) :
    ∃ place, place.host = v.1 ∧ v.2 = getProxyRequest req place := by
  induction n generalizing dest with
  | zero => cases sent
  | succ n ih =>
      rw [sends_succ] at sent
      cases hwritten : requestToString (getProxyRequest req dest) with
      | error e => simp [hwritten] at sent
      | ok text =>
          simp only [hwritten, List.mem_cons] at sent
          rcases sent with rfl | sent
          · exact ⟨dest, rfl, rfl⟩
          · cases hreply : net dest.host (getProxyRequest req dest) with
            | none => simp [hreply] at sent
            | some segments =>
                simp only [hreply] at sent
                cases hread : readResponse w h.prefixUri segments with
                | error e => simp [hread] at sent
                | ok outcome =>
                    cases outcome with
                    | respond res => simp [hread] at sent
                    | redirect location =>
                        simp only [hread, getProxyRequest_again] at sent
                        split_ifs at sent
                        · cases sent
                        · exact ih sent

private theorem sendRequest_congr {n : Nat} {host : Bytes}
    (agree : ∀ v ∈ sends net h w n req host, net v.1 v.2 = net' v.1 v.2) :
    sendRequest net h w n req host = sendRequest net' h w n req host := by
  induction n generalizing req host with
  | zero => rfl
  | succ n ih =>
      rw [sends_succ] at agree
      rw [sendRequest_eq, sendRequest_eq]
      cases hwritten : requestToString req with
      | error e => rfl
      | ok text =>
          simp only [hwritten, List.forall_mem_cons] at agree
          obtain ⟨here, later⟩ := agree
          rw [← here]
          cases hreply : net host req with
          | none => rfl
          | some segments =>
              simp only [hreply] at later ⊢
              cases hread : readResponse w h.prefixUri segments with
              | error e => rfl
              | ok outcome =>
                  cases outcome with
                  | respond res => rfl
                  | redirect location =>
                      simp only [hread] at later
                      simp only [handleRedirect]
                      by_cases guard : (redirectUrl location).host = host ∧
                          (redirectUrl location).path = req.uri
                      · rw [if_pos guard, if_pos guard]
                      · rw [if_neg guard] at later ⊢
                        rw [if_neg guard]
                        exact ih later

theorem mem_asks {n : Nat} {v : Bytes × Request} (asked : v ∈ asks net h w n req) :
    ∃ place, place.host = v.1 ∧ v.2 = getProxyRequest req place := by
  unfold asks at asked
  by_cases malformed : h.host = [] ∨ h.path = []
  · simp [malformed] at asked
  · simp only [if_neg malformed] at asked
    cases hslash : ensureSlash req.uri with
    | error e => simp [hslash] at asked
    | ok uri =>
        simp only [hslash] at asked
        cases hfind : find h.prefixUri uri with
        | none => simp [hfind] at asked
        | some index =>
            simp only [hfind] at asked
            exact mem_sends asked

end Chains

/-- However often the proxy is redirected and wherever to: each request it sends is the client's
own, addressed to the host that gets it, and its answer depends on no other request. -/
theorem hops_carry_request (net : Network) (h : ReverseProxyRequestHandler) (w : World) (n : Nat)
    (req : Request) :
    (∀ v ∈ asks net h w n req, Carries req v.1 v.2) ∧
      ∀ net', (∀ v ∈ asks net h w n req, net v.1 v.2 = net' v.1 v.2) →
        handleRequest net h w n req = handleRequest net' h w n req := by
  refine ⟨fun v asked => ?_, fun net' agree => ?_⟩
  · obtain ⟨place, hhost, hreq⟩ := mem_asks asked
    rw [← hhost, hreq]
    exact carries_getProxyRequest
  · unfold asks at agree
    unfold handleRequest
    by_cases malformed : h.host = [] ∨ h.path = []
    · simp only [if_pos malformed]
    · simp only [if_neg malformed] at agree ⊢
      cases hslash : ensureSlash req.uri with
      | error e => rfl
      | ok uri =>
          simp only [hslash] at agree ⊢
          cases hfind : find h.prefixUri uri with
          | none => rfl
          | some index =>
              simp only [hfind] at agree ⊢
              exact sendRequest_congr agree

end Wnza.Handler.Hops
