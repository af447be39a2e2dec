/- GID: Wnza/Handler/Redirects
   generality: I
   source: src/reverse_proxy_request_handler.cc (send_request, handle_redirect)
   digest: Chains of redirections, and when following one of them ends. -/

import Wnza.Foundation.Orbit
import Wnza.Handler.ProxyReading

set_option autoImplicit false
set_option relaxedAutoImplicit false

namespace Wnza.Handler.Redirects

open Wnza.Foundation.Orbit
open Wnza.Http.Text
open Wnza.Http.Parser
open Wnza.Handler.Basic
open Wnza.Handler.Basic.Response
open Wnza.Handler.ProxyReading
open Wnza.Handler.ProxyTarget
open Wnza.Handler.ReverseProxy

/-- What the hosts reply, by host and request target. -/
abbrev Upstream := Bytes → Bytes → HttpReply

def network (upstream : Upstream) : Network := fun host req => some [(upstream host req.uri).text]

/-- A host and the target of a request to it. -/
abbrev Visit := Bytes × Bytes

def visitOf (location : Bytes) : Visit :=
  ((redirectUrl location).host, (redirectUrl location).path ++ (redirectUrl location).query)

/-- The next request of a chain; none behind an answer, and none if the new location has the
host and the path of the request itself. -/
def follow (upstream : Upstream) (v : Visit) : Option Visit :=
  match (upstream v.1 v.2).location with
  | none => none
  | some location =>
      if (redirectUrl location).host = v.1 ∧ (redirectUrl location).path = v.2 then none
      else some (visitOf location)

/-- The requests of the chain that begins with a request to a host. -/
def chain (upstream : Upstream) (host : Bytes) (req : Request) : Nat → Option Visit :=
  orbit (follow upstream) (host, req.uri)

/-- The chain is followed to a response, which is 400 if a reply redirects to a request that was
already made. -/
def Concludes (upstream : Upstream) (h : ReverseProxyRequestHandler) (w : World) (req : Request)
    (host : Bytes) : Prop :=
  ∃ n res, sendRequest (network upstream) h w n req host = some (.ok res) ∧
    ∀ i v location, chain upstream host req i = some v →
      (upstream v.1 v.2).location = some location →
      (∃ j ≤ i, chain upstream host req j = some (visitOf location)) → res.code = .BAD_REQ

section Steps

variable {upstream : Upstream} {h : ReverseProxyRequestHandler} {w : World} {req : Request}
  {host : Bytes}

private theorem sendRequest_step (valid : req.method ≠ .INVALID)
    (readable : (upstream host req.uri).Readable) (n : Nat) :
    (follow upstream (host, req.uri) = none ∧
      ∃ res, sendRequest (network upstream) h w (n + 1) req host = some (.ok res) ∧
        ((upstream host req.uri).location ≠ none → res.code = .BAD_REQ)) ∨
    ∃ next : Request, next.method = req.method ∧ ∃ host',
      follow upstream (host, req.uri) = some (host', next.uri) ∧
      sendRequest (network upstream) h w (n + 1) req host =
        sendRequest (network upstream) h w n next host' := by
  rw [sendRequest_succ valid rfl]
  obtain ⟨location, hlocation, hread⟩ | ⟨hlocation, res, hread⟩ :=
    readResponse_of_readable w h.prefixUri readable
  · simp only [hread, handleRedirect, follow, hlocation]
    by_cases guard : (redirectUrl location).host = host ∧ (redirectUrl location).path = req.uri
    · left
      rw [if_pos guard, if_pos guard]
      exact ⟨rfl, _, rfl, fun _ => rfl⟩
    · right
      rw [if_neg guard, if_neg guard]
      exact ⟨getProxyRequest req (redirectUrl location), rfl, _, rfl, rfl⟩
  · left
    simp only [hread, follow, hlocation]
    exact ⟨trivial, res, rfl, fun some => absurd rfl some⟩

private theorem sendRequest_chain (valid : req.method ≠ .INVALID) {k : Nat} {v : Visit}
    (reached : chain upstream host req k = some v)
    (readable : ∀ i < k, ∀ u, chain upstream host req i = some u → (upstream u.1 u.2).Readable)
    (n : Nat) :
    ∃ next : Request, next.method = req.method ∧ next.uri = v.2 ∧
      sendRequest (network upstream) h w (k + n) req host =
        sendRequest (network upstream) h w n next v.1 := by
  induction k generalizing v n with
  | zero =>
      obtain rfl := Option.some.inj reached
      exact ⟨req, rfl, rfl, by rw [Nat.zero_add]⟩
  | succ k ih =>
      obtain ⟨u, hu, hnext⟩ := Option.bind_eq_some_iff.mp reached
      obtain ⟨current, hmethod, huri, hsend⟩ := ih hu (fun i hi => readable i (by omega)) (n + 1)
      have read : (upstream u.1 current.uri).Readable := by
        rw [huri]
        exact readable k (Nat.lt_succ_self k) u hu
      have here : (u.1, current.uri) = u := by rw [huri]
      have valid' : current.method ≠ .INVALID := by rwa [hmethod]
      obtain ⟨stops, -⟩ | ⟨next, hmethod', host', hfollow, hstep⟩ :=
        @sendRequest_step upstream h w current u.1 valid' read n
      · rw [here] at stops
        cases stops.symm.trans hnext
      · rw [here] at hfollow
        obtain rfl := Option.some.inj (hfollow.symm.trans hnext)
        refine ⟨next, hmethod'.trans hmethod, rfl, ?_⟩
        rw [show k + 1 + n = k + (n + 1) by omega, hsend, hstep]

private theorem follow_of_location {v : Visit} {location : Bytes} {u : Visit}
    (hlocation : (upstream v.1 v.2).location = some location)
    (next : follow upstream v = some u) : u = visitOf location := by
  simp only [follow, hlocation] at next
  split_ifs at next
  exact (Option.some.inj next).symm

private theorem finite_follow
    (finite : {location | ∃ host target, (upstream host target).location = some location}.Finite) :
    {u | ∃ v, follow upstream v = some u}.Finite := by
  refine (finite.image visitOf).subset ?_
  rintro u ⟨v, next⟩
  cases hlocation : (upstream v.1 v.2).location with
  | none =>
      simp only [follow, hlocation] at next
      cases next
  | some location =>
      exact ⟨location, ⟨v.1, v.2, hlocation⟩, (follow_of_location hlocation next).symm⟩

private theorem sendRequest_end (valid : req.method ≠ .INVALID) {k : Nat} {v : Visit}
    (reached : chain upstream host req k = some v) (ends : follow upstream v = none)
    (readable : ∀ i u, chain upstream host req i = some u → (upstream u.1 u.2).Readable) :
    ∃ res, sendRequest (network upstream) h w (k + 1) req host = some (.ok res) ∧
      ((upstream v.1 v.2).location ≠ none → res.code = .BAD_REQ) := by
  obtain ⟨last, hmethod, huri, hsend⟩ :=
    @sendRequest_chain upstream h w req host valid k v reached (fun i _ u hu => readable i u hu) 1
  have here : (v.1, last.uri) = v := by rw [huri]
  have read : (upstream v.1 last.uri).Readable := by
    rw [huri]
    exact readable k v reached
  have valid' : last.method ≠ .INVALID := by rwa [hmethod]
  obtain ⟨-, res, hres, hcode⟩ | ⟨next, -, host', hfollow, -⟩ :=
    @sendRequest_step upstream h w last v.1 valid' read 0
  · exact ⟨res, hsend.trans hres, by rwa [huri] at hcode⟩
  · rw [here] at hfollow
    cases ends.symm.trans hfollow

private theorem readable_of_sendRequest (valid : req.method ≠ .INVALID) {n : Nat} {res : Response}
    (returned : sendRequest (network upstream) h w n req host = some (.ok res)) (i : Nat)
    (v : Visit) (reached : chain upstream host req i = some v) : (upstream v.1 v.2).Readable := by
  induction i using Nat.strong_induction_on generalizing v with
  | _ i ih =>
      by_contra unreadable
      have before :
        ∀ j < i, ∀ u, chain upstream host req j = some u → (upstream u.1 u.2).Readable :=
        fun j hj u hu => ih j hj u hu
      rcases Nat.lt_or_ge i n with hlt | hge
      · -- the reading of this reply fails
        obtain ⟨m, rfl⟩ : ∃ m, n = i + (m + 1) := ⟨n - i - 1, by omega⟩
        obtain ⟨last, hmethod, huri, hsend⟩ :=
          @sendRequest_chain upstream h w req host valid i v reached before (m + 1)
        have valid' : last.method ≠ .INVALID := by rwa [hmethod]
        rw [hsend, sendRequest_succ valid' rfl, huri, readResponse_of_not_readable _ _ unreadable]
          at returned
        cases Option.some.inj returned
      · -- the requests allowed do not reach it
        obtain ⟨u, hu⟩ := exists_of_orbit reached hge
        obtain ⟨last, -, -, hsend⟩ :=
          @sendRequest_chain upstream h w req host valid n u hu (fun j hj => before j (by omega)) 0
        rw [Nat.add_zero] at hsend
        cases hsend.symm.trans returned

private theorem chain_succ (i : Nat) :
    chain upstream host req (i + 1) = (chain upstream host req i).bind (follow upstream) :=
  rfl

private theorem chain_ends_of_sendRequest (valid : req.method ≠ .INVALID) {n : Nat} {res : Response}
    (returned : sendRequest (network upstream) h w n req host = some (.ok res)) :
    chain upstream host req n = none := by
  by_contra endless
  obtain ⟨u, hu⟩ := Option.ne_none_iff_exists'.mp endless
  obtain ⟨last, -, -, hsend⟩ := @sendRequest_chain upstream h w req host valid n u hu
    (fun i _ u hu => readable_of_sendRequest valid returned i u hu) 0
  rw [Nat.add_zero] at hsend
  cases hsend.symm.trans returned

private theorem Concludes.injective (concludes : Concludes upstream h w req host)
    (valid : req.method ≠ .INVALID) {i j : Nat} {v : Visit}
    (hi : chain upstream host req i = some v) (hj : chain upstream host req j = some v) :
    i = j := by
  obtain ⟨n, res, returned, -⟩ := concludes
  exact orbit_injective_of_ends (chain_ends_of_sendRequest valid returned) hi hj

private theorem exists_last (ends : ∃ n, chain upstream host req n = none) :
    ∃ k v, chain upstream host req k = some v ∧ follow upstream v = none := by
  classical
  obtain ⟨k, hk⟩ : ∃ k, Nat.find ends = k + 1 := by
    refine Nat.exists_eq_succ_of_ne_zero (fun hzero => ?_)
    have first := Nat.find_spec ends
    rw [hzero] at first
    cases first
  obtain ⟨v, reached⟩ : ∃ v, chain upstream host req k = some v :=
    Option.ne_none_iff_exists'.mp (Nat.find_min ends (by omega))
  have stops := Nat.find_spec ends
  rw [hk, chain_succ, reached] at stops
  exact ⟨k, v, reached, stops⟩

private theorem last_unique {i k : Nat} {u v : Visit} (hu : chain upstream host req i = some u)
    (hv : chain upstream host req k = some v) (hi : follow upstream u = none)
    (hk : follow upstream v = none) : i = k := by
  have order : ∀ {i k u v}, chain upstream host req i = some u →
      chain upstream host req k = some v → follow upstream u = none → k ≤ i := by
    intro i k u v hu hv hi
    by_contra hlt
    obtain ⟨c, hc⟩ := exists_of_orbit hv (show i + 1 ≤ k by omega)
    have stop : chain upstream host req (i + 1) = none := by
      rw [chain_succ, hu]
      exact hi
    cases stop.symm.trans hc
  exact Nat.le_antisymm (order hv hu hk) (order hu hv hi)

end Steps

/-- Following redirections from a request concludes exactly if no request of the chain comes
twice and no reply of the chain has a header whose value is needed and that ends at its colon. -/
theorem redirects_conclude_iff (upstream : Upstream)
    (finite : {location | ∃ host target, (upstream host target).location = some location}.Finite)
    (h : ReverseProxyRequestHandler) (w : World) (req : Request) (valid : req.method ≠ .INVALID)
    (host : Bytes) :
    Concludes upstream h w req host ↔
      (∀ i v, chain upstream host req i = some v → (upstream v.1 v.2).Readable) ∧
        ∀ i j v, chain upstream host req i = some v → chain upstream host req j = some v →
          i = j := by
  constructor
  · intro concludes
    refine ⟨?_, fun i j v => concludes.injective valid⟩
    obtain ⟨n, res, returned, -⟩ := concludes
    exact readable_of_sendRequest valid returned
  · rintro ⟨readable, injective⟩
    have ends := (@orbit_ends_iff _ (follow upstream) (host, req.uri) (finite_follow finite)).mpr
      injective
    obtain ⟨k, v, reached, last⟩ := exists_last ends
    obtain ⟨res, returned, hcode⟩ := @sendRequest_end upstream h w req host valid k v reached last
      readable
    refine ⟨k + 1, res, returned, ?_⟩
    rintro i u location hu hlocation ⟨j, hj, hagain⟩
    cases hnext : follow upstream u with
    | some next =>
        -- the chain would come back to a request that was made
        obtain rfl := follow_of_location hlocation hnext
        have step : chain upstream host req (i + 1) = some (visitOf location) := by
          rw [chain_succ, hu]
          exact hnext
        have := injective j (i + 1) _ hagain step
        omega
    | none =>
        obtain rfl := last_unique hu reached hnext last
        obtain rfl := Option.some.inj (hu.symm.trans reached)
        exact hcode (by simp [hlocation])

/-- A reply `302 Found` with one header. -/
def found (location : Bytes) (plain : ∀ c ∈ location, c ≠ CR ∧ c ≠ LF) : HttpReply where
  version := lit "HTTP/1.1"
  code := lit "302"
  reason := lit "Found"
  headers := [(lit "Location", SP :: location)]
  body := []
  version_http := http11_version
  version_plain := http11_plain
  code_digits := code302_digits
  reason_plain := found_plain
  headers_named := by
    intro h hh
    have name : h.1 = lit "Location" := by rw [List.mem_singleton.mp hh]
    rw [name]
    exact location_named
  headers_plain := by
    intro h hh c hc
    rw [List.mem_singleton.mp hh] at hc
    rcases List.mem_cons.mp hc with rfl | hc
    · exact ⟨by decide, by decide⟩
    · exact plain c hc

private theorem location_found {location : Bytes} (plain : ∀ c ∈ location, c ≠ CR ∧ c ≠ LF) :
    (found location plain).location = some location := by
  have names : NamesLocation (lit "Location", SP :: location) := by
    refine ⟨[], COLON :: SP :: location, ?_⟩
    simp [HttpReply.headerLine]
  have status : (found location plain).status = 302 := rfl
  rw [HttpReply.location, HttpReply.redirectHeader, if_pos (.inl status)]
  simp [found, names]

/-- A reply `200 OK` without headers. -/
def okReply : HttpReply where
  version := lit "HTTP/1.1"
  code := lit "200"
  reason := lit "OK"
  headers := []
  body := lit "hi"
  version_http := http11_version
  version_plain := http11_plain
  code_digits := code200_digits
  reason_plain := ok_plain
  headers_named := List.forall_mem_nil _
  headers_plain := List.forall_mem_nil _

/-- Host `a` redirects to host `b`, which answers. -/
def moved : Upstream := fun host _ =>
  if host = lit "a" then found (lit "http://b/") (forall_mem_of_all (by decide)) else okReply

/-- Hosts `a` and `b` redirect to each other. -/
def pingPong : Upstream := fun host _ =>
  if host = lit "a" then found (lit "http://b/") (forall_mem_of_all (by decide))
  else found (lit "http://a/") (forall_mem_of_all (by decide))

private theorem finite_locations_of_subset {upstream : Upstream} {locations : List Bytes}
    (among : ∀ host target location, (upstream host target).location = some location →
      location ∈ locations) :
    {location | ∃ host target, (upstream host target).location = some location}.Finite := by
  refine (List.finite_toSet locations).subset ?_
  rintro location ⟨host, target, hlocation⟩
  exact among host target location hlocation

/-- One redirection, to a host that answers. -/
theorem redirects_conclude_moved :
    Concludes moved ⟨lit "/p/", lit "http://a/", lit "80", lit "a", lit "/"⟩ ⟨fun _ => none, []⟩
      ⟨.GET, lit "/", lit "HTTP/1.0", ∅, []⟩ (lit "a") := by
  have finite :
    {location | ∃ host target, (moved host target).location = some location}.Finite := by
    refine @finite_locations_of_subset moved [lit "http://b/"] ?_
    intro host target location hlocation
    unfold moved at hlocation
    split_ifs at hlocation
    · rw [location_found, Option.some.injEq] at hlocation
      simp [← hlocation]
    · cases hlocation
  have visits : ∀ i v, chain moved (lit "a") ⟨.GET, lit "/", lit "HTTP/1.0", ∅, []⟩ i = some v →
      (i = 0 ∧ v = (lit "a", lit "/")) ∨ (i = 1 ∧ v = (lit "b", lit "/")) := by
    intro i v hv
    have ends : chain moved (lit "a") ⟨.GET, lit "/", lit "HTTP/1.0", ∅, []⟩ 2 = none := by decide
    match i, hv with
    | 0, hv => exact .inl ⟨rfl, (Option.some.inj hv).symm⟩
    | 1, hv => exact .inr ⟨rfl, (Option.some.inj hv).symm⟩
    | i + 2, hv =>
        obtain ⟨c, hc⟩ := exists_of_orbit hv (show 2 ≤ i + 2 by omega)
        cases ends.symm.trans hc
  refine (redirects_conclude_iff moved finite _ _ _ (by decide) _).mpr ⟨?_, ?_⟩
  · intro i v hv
    rcases visits i v hv with ⟨-, rfl⟩ | ⟨-, rfl⟩
    · refine ⟨fun k hk => ?_, fun ok => absurd ok (by decide)⟩
      obtain rfl : (lit "Location", lit " http://b/") = k := Option.some.inj hk
      decide
    · constructor
      · intro k hk
        cases hk
      · intro _ k hk
        cases hk
  · intro i j v hi hj
    rcases visits i v hi with ⟨rfl, rfl⟩ | ⟨rfl, rfl⟩
    · rcases visits j _ hj with ⟨rfl, -⟩ | ⟨-, other⟩
      · rfl
      · exact absurd other (by decide)
    · rcases visits j _ hj with ⟨-, other⟩ | ⟨rfl, -⟩
      · exact absurd other (by decide)
      · rfl

/-- Two hosts that redirect to each other are asked forever. -/
theorem mutual_redirects_do_not_conclude :
    {location | ∃ host target, (pingPong host target).location = some location}.Finite ∧
      ¬ Concludes pingPong ⟨lit "/p/", lit "http://a/", lit "80", lit "a", lit "/"⟩
        ⟨fun _ => none, []⟩ ⟨.GET, lit "/", lit "HTTP/1.0", ∅, []⟩ (lit "a") := by
  constructor
  · refine @finite_locations_of_subset pingPong [lit "http://a/", lit "http://b/"] ?_
    intro host target location hlocation
    unfold pingPong at hlocation
    split_ifs at hlocation
    · rw [location_found, Option.some.injEq] at hlocation
      simp [← hlocation]
    · rw [location_found, Option.some.injEq] at hlocation
      simp [← hlocation]
  · intro concludes
    have first : chain pingPong (lit "a") ⟨.GET, lit "/", lit "HTTP/1.0", ∅, []⟩ 0 =
        some (lit "a", lit "/") := rfl
    have back : chain pingPong (lit "a") ⟨.GET, lit "/", lit "HTTP/1.0", ∅, []⟩ 2 =
        some (lit "a", lit "/") := by decide
    have := concludes.injective (by decide) first back
    cases this

end Wnza.Handler.Redirects
