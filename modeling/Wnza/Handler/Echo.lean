/- GID: Wnza/Handler/Echo
   generality: I
   source: src/echo_request_handler.cc, src/health_request_handler.cc,
     src/not_found_request_handler.cc
   digest: The handlers without configuration, and the round trip of echoed requests. -/

import Wnza.Handler.Basic
import Wnza.Http.Grammar

set_option autoImplicit false
set_option relaxedAutoImplicit false

namespace Wnza.Handler.Echo

open Wnza.Foundation.Feed
open Wnza.Foundation.FirstInsert
open Wnza.Http.Text
open Wnza.Http.Parser
open Wnza.Http.Grammar
open Wnza.Handler.Basic
open Wnza.Handler.Basic.Response

def echoText (name : Bytes) (req : Request) : Bytes :=
  requestHead name req ++ lit "\r\n" ++ req.body

def echoResponse (w : World) (req : Request) : Response :=
  makeDateServernameHeaders w <|
    match methodName req.method with
    | some name =>
        ((((empty.setCode .OK).addHeader (lit "Content-Type") (lit "text/plain")).addHeader
          (lit "Content-Length") (stdToString (echoText name req).length)).addBody
          (echoText name req))
    | none => empty.make400Error

def echoRequestHandler : RequestHandler where
  handleRequest w req := .ok (echoResponse w req)
  getHandlerName := lit "EchoHandler"

def healthResponse (w : World) (req : Request) : Response :=
  makeDateServernameHeaders w <|
    if req.method ≠ .INVALID then
      ((empty.setCode .OK).addBody (lit "OK")).addHeader
        (lit "Content-Length") (stdToString (lit "OK").length)
    else empty.make400Error

def healthRequestHandler : RequestHandler where
  handleRequest w req := .ok (healthResponse w req)
  getHandlerName := lit "HealthHandler"

def notFoundRequestHandler : RequestHandler where
  handleRequest w _ := .ok (make404Error w empty)
  getHandlerName := lit "NotFoundHandler"

theorem lastLength_toList (headers : Headers) :
    lastLength headers.toList = headers[contentLength]? := by
  unfold lastLength
  cases hlast : (headers.toList.filter (fun h => h.1 = contentLength)).getLast? with
  | none =>
      rw [List.getLast?_eq_none_iff, List.filter_eq_nil_iff] at hlast
      cases hget : headers[contentLength]? with
      | none => rfl
      | some v =>
          have entry := Std.ExtTreeMap.mem_toList_iff_getElem?_eq_some.mpr hget
          simpa using hlast _ entry
  | some h =>
      have hmem := List.mem_of_getLast? hlast
      rw [List.mem_filter] at hmem
      have hkey : h.1 = contentLength := by simpa using hmem.2
      have hget := Std.ExtTreeMap.mem_toList_iff_getElem?_eq_some.mp hmem.1
      rw [hkey] at hget
      rw [hget]
      rfl

/-- The body is as long as the `Content-Length` header says, and empty without one. -/
def BodyDeclared (req : Request) : Prop :=
  match req.headers[contentLength]? with
  | none => req.body.length = 0
  | some v => stoi v = .ok req.body.length

/-- A request whose fields can stand in a message. -/
structure Encodable (req : Request) : Prop where
  method : req.method ≠ .INVALID
  uri : IsUri req.uri
  version : ∃ a b, IsDigits a ∧ IsDigits b ∧ req.version = versionText a b
  headers : ∀ h ∈ req.headers.toList, IsTokenWord h.1 ∧ IsValue h.2
  body : BodyDeclared req

private theorem declaredLength_toList {req : Request} (h : BodyDeclared req) :
    declaredLength req.headers.toList = .ok req.body.length := by
  rw [declaredLength, lastLength_toList]
  cases hget : req.headers[contentLength]? with
  | none =>
      simp only [BodyDeclared, hget] at h
      simp [h]
  | some v =>
      simp only [BodyDeclared, hget] at h
      exact h

private theorem exists_message {req : Request} (h : Encodable req) :
    ∃ name, ∃ m : Message, methodName req.method = some name ∧
      m.encode = echoText name req ∧ m.request = req := by
  obtain ⟨name, hname⟩ := exists_methodName h.method
  obtain ⟨htoken, hmethod⟩ := methodName_spec hname
  obtain ⟨a, b, ha, hb, hversion⟩ := h.version
  have accepted : LengthsAccepted req.headers.toList := by
    intro k hk hc
    have hget := Std.ExtTreeMap.mem_toList_iff_getElem?_eq_some.mp hk
    have hbody := h.body
    simp only [BodyDeclared, ← hc, hget] at hbody
    exact ⟨_, hbody⟩
  let line : RequestLine := ⟨name, req.uri, a, b, htoken, h.uri, ha, hb⟩
  let m : Message :=
    ⟨line, req.headers.toList, req.body, h.headers, accepted, declaredLength_toList h.body⟩
  have text : m.encode = echoText name req := by
    rw [Message.encode, echoText, requestHead_eq_head line req rfl hversion]
    rfl
  refine ⟨name, m, hname, text, ?_⟩
  have entries : insertFirst ∅ req.headers.toList = req.headers := insertFirst_toList _
  cases req
  simp_all [Message.request, m, line, RequestLine.version]

/-- The request parser undoes the echo encoder, however the echoed text is cut into buffers. -/
theorem parse_undoes_echo (req : Request) (encodable : Encodable req) (w : World)
    (res : Response) (echoed : echoRequestHandler.handleRequest w req = .ok res)
    (chunks : List Bytes) (nonempty : ∀ c ∈ chunks, c ≠ []) (cut : chunks.flatten = res.body) :
    ∃ rs last p, chunks.getLast? = some last ∧
      parseChunks .fresh chunks = .ok (rs ++ [⟨.good, last.length, 0, ⟨req, p⟩⟩]) ∧
      ∀ r ∈ rs, r.result = .indeterminate := by
  obtain ⟨name, m, hname, text, hreq⟩ := exists_message encodable
  have body : res.body = m.encode := by
    obtain rfl := Except.ok.inj echoed
    simp only [echoResponse, hname, text]
    rfl
  have run : feed machine .fresh chunks.flatten = .done .good m.final [] := by
    rw [cut, body, feed_encode]
  obtain ⟨rs, last, hlast, hrs, hind⟩ := parseChunks_of_done nonempty run (by
    simp [Message.final])
  refine ⟨rs, last, m.final.setMethod.parser, hlast, ?_, hind⟩
  rw [hrs, ← hreq]
  rfl

theorem parse_undoes_echo_post :
    ∃ (rs : List ParseResult) (last : Bytes) (p : RequestParser),
      parseChunks .fresh [lit "POST /echo HTTP/1.1\r\nContent-Le", lit "ngth: 2\r\n\r\no",
        lit "k"] =
        .ok (rs ++ [⟨.good, last.length, 0, ⟨⟨.POST, lit "/echo", lit "HTTP/1.1",
          (∅ : Headers).insert contentLength (lit "2"), lit "ok"⟩, p⟩⟩]) := by
  have encodable : Encodable ⟨.POST, lit "/echo", lit "HTTP/1.1",
      (∅ : Headers).insert contentLength (lit "2"), lit "ok"⟩ :=
    ⟨by decide, by decide, ⟨lit "1", lit "1", by decide, by decide, by decide⟩, by decide,
      show stoi (lit "2") = .ok 2 by decide⟩
  obtain ⟨rs, last, p, -, run, -⟩ := parse_undoes_echo _ encodable ⟨fun _ => none, []⟩ _ rfl
    [lit "POST /echo HTTP/1.1\r\nContent-Le", lit "ngth: 2\r\n\r\no", lit "k"]
    (by decide) (by decide)
  exact ⟨rs, last, p, run⟩

end Wnza.Handler.Echo
