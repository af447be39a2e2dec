/- GID: Wnza/Handler/Announced
   generality: I
   source: src/request_parser.cc, src/reverse_proxy_request_handler.cc (get_proxy_request)
   digest: The body of a request against the content length in its header map. -/

import Wnza.Handler.Echo
import Wnza.Handler.ReverseProxy
import Wnza.Http.Folding

set_option autoImplicit false
set_option relaxedAutoImplicit false

namespace Wnza.Handler.Announced

open Wnza.Foundation.Feed
open Wnza.Foundation.FirstInsert
open Wnza.Http.Text
open Wnza.Http.Parser
open Wnza.Http.Grammar
open Wnza.Http.Folding
open Wnza.Handler.Echo
open Wnza.Handler.ReverseProxy

/-- The first and the last header line named `Content-Length` give the same number. -/
def SameLengths (hs : List Header) : Prop :=
  ∀ v v', firstValue hs contentLength = some v → lastLength hs = some v' → stoi v = stoi v'

/-- The body is as long as the header map says, here and wherever the proxy sends the request. -/
def Announces (req : Request) : Prop :=
  BodyDeclared req ∧ ∀ dest, BodyDeclared (getProxyRequest req dest)

private theorem lastLength_eq_none_iff {hs : List Header} :
    lastLength hs = none ↔ firstValue hs contentLength = none := by
  simp [lastLength, firstValue]

private theorem bodyDeclared_iff (m : Message) :
    BodyDeclared m.request ↔ SameLengths m.headers := by
  have kept : m.request.headers[contentLength]? = firstValue m.headers contentLength := by
    simp [Message.request, getElem?_insertFirst]
  have counted := m.body_declared
  simp only [BodyDeclared, SameLengths, kept]
  cases first : firstValue m.headers contentLength with
  | none =>
      have absent := lastLength_eq_none_iff.mpr first
      rw [declaredLength, absent] at counted
      have zero : (0 : Int) = m.body.length := Except.ok.inj counted
      have length : m.request.body.length = 0 := by
        have same : m.request.body.length = m.body.length := rfl
        omega
      simp [length]
  | some v =>
      obtain ⟨v', last⟩ : ∃ v', lastLength m.headers = some v' := by
        rw [← Option.ne_none_iff_exists']
        intro absent
        rw [lastLength_eq_none_iff.mp absent] at first
        cases first
      rw [declaredLength, last] at counted
      have declared : stoi v' = .ok m.request.body.length := counted
      constructor
      · intro agrees u u' hu hu'
        obtain rfl := Option.some.inj hu
        rw [last] at hu'
        obtain rfl := Option.some.inj hu'
        rw [declared]
        exact agrees
      · intro agrees
        exact (agrees v v' rfl last).trans declared

private theorem bodyDeclared_getProxyRequest (req : Request) (dest : Url) :
    BodyDeclared (getProxyRequest req dest) ↔ BodyDeclared req := by
  have kept : (getProxyRequest req dest).headers[contentLength]? = req.headers[contentLength]? := by
    have connection : compare (lit "Connection") contentLength ≠ .eq := by decide
    have encoding : compare (lit "Accept-Encoding") contentLength ≠ .eq := by decide
    have host : compare (lit "Host") contentLength ≠ .eq := by decide
    simp only [getProxyRequest, Std.ExtTreeMap.getElem?_insert, Std.ExtTreeMap.getElem?_erase,
      if_neg connection, if_neg encoding, if_neg host]
  simp only [BodyDeclared, kept]
  rfl

/-- A request that is accepted carries the body that its header map announces exactly if its first
and its last content length are the same number. -/
theorem announces_iff (w : Bytes) (r : ParseResult) (parsed : parse .fresh 0 w = .ok r)
    (good : r.result = .good) :
    (∃ m : FoldedMessage, m.encode <+: w) ∧
      ∀ m : FoldedMessage, m.encode <+: w →
        (Announces r.parsing.request ↔ SameLengths m.message.headers) := by
  constructor
  · obtain ⟨m, hm, -⟩ := (parse_good_iff_folded w _).mp ⟨r, parsed, good, rfl⟩
    exact ⟨m, hm⟩
  · intro m hm
    obtain ⟨r', parsed', -, request⟩ := (parse_good_iff_folded w _).mpr ⟨m, hm, rfl⟩
    obtain rfl := Except.ok.inj (parsed.symm.trans parsed')
    rw [Announces, request, bodyDeclared_iff]
    simp only [bodyDeclared_getProxyRequest, bodyDeclared_iff]
    constructor
    · intro announces
      exact announces.1
    · intro same
      exact ⟨same, fun _ => same⟩

/-- The second of two equal lengths is on a continuation line. -/
theorem announces_folded :
    ∃ r, parse .fresh 0
        (lit "POST / HTTP/1.0\r\nContent-Length: 2\r\nContent-Length: \r\n 2\r\n\r\nok") = .ok r ∧
      r.result = .good ∧ Announces r.parsing.request ∧
      ∃ m : FoldedMessage,
        m.encode <+:
          lit "POST / HTTP/1.0\r\nContent-Length: 2\r\nContent-Length: \r\n 2\r\n\r\nok" ∧
        SameLengths m.message.headers := by
  obtain ⟨⟨m, hm⟩, iff⟩ := announces_iff
    (lit "POST / HTTP/1.0\r\nContent-Length: 2\r\nContent-Length: \r\n 2\r\n\r\nok") _ rfl rfl
  have declared : BodyDeclared ⟨.POST, lit "/", lit "HTTP/1.0",
      (∅ : Headers).insertIfNew contentLength (lit "2"), lit "ok"⟩ :=
    show stoi (lit "2") = .ok 2 by decide
  have announces : Announces ⟨.POST, lit "/", lit "HTTP/1.0",
      (∅ : Headers).insertIfNew contentLength (lit "2"), lit "ok"⟩ :=
    ⟨declared, fun dest => (bodyDeclared_getProxyRequest _ dest).mpr declared⟩
  exact ⟨_, rfl, rfl, announces, m, hm, (iff m hm).mp announces⟩

/-- Two lengths: the map keeps the first, the body has the second. -/
theorem second_length_counts :
    ∃ r, parse .fresh 0
        (lit "POST / HTTP/1.0\r\nContent-Length: 1\r\nContent-Length: 0\r\n\r\n") = .ok r ∧
      r.result = .good ∧ r.parsing.request.body = [] ∧
      r.parsing.request.headers[contentLength]? = some (lit "1") ∧
      ¬ Announces r.parsing.request := by
  refine ⟨_, rfl, rfl, rfl, rfl, ?_⟩
  rintro ⟨declared, -⟩
  have one : stoi (lit "1") = .ok 0 := declared
  exact absurd one (by decide)

end Wnza.Handler.Announced
