/- GID: Wnza/Handler/Basic
   generality: I
   source: include/response.h, src/response.cc, include/request_handler.h
   digest: Responses, the operations of their builder and the interface of request handlers. -/

import Wnza.Http.Grammar

set_option autoImplicit false
set_option relaxedAutoImplicit false

namespace Wnza.Handler.Basic

open Wnza.Http.Text
open Wnza.Http.Parser
open Wnza.Http.Grammar

inductive StatusCode
  | BAD_REQ | NOT_FOUND | OK
  deriving DecidableEq

structure Response where
  code : StatusCode
  headers : Headers
  body : Bytes

/-- What a handler reads outside the request: the files that can be opened, by path, and the
text of the current date. -/
structure World where
  files : Bytes → Option Bytes
  date : Bytes

namespace Response

/-- A builder before its first call.  `code_` has no value yet; every use sets it. -/
def empty : Response := ⟨.BAD_REQ, ∅, []⟩

def setCode (r : Response) (code : StatusCode) : Response := { r with code := code }

def addHeader (r : Response) (key val : Bytes) : Response :=
  { r with headers := r.headers.insert key val }

def addBody (r : Response) (data : Bytes) : Response := { r with body := data }

def make400Error (r : Response) : Response :=
  ((r.setCode .BAD_REQ).addHeader (lit "Content-Length") (lit "0")).addBody []

/-- The page of `404page.html`, empty when the file cannot be opened. -/
def notFoundPage (w : World) : Bytes := (w.files (lit "404page.html")).getD []

def make404Error (w : World) (r : Response) : Response :=
  (((r.setCode .NOT_FOUND).addBody (notFoundPage w)).addHeader
      (lit "Content-Type") (lit "text/html")).addHeader
    (lit "Content-Length") (stdToString (notFoundPage w).length)

def makeDateServernameHeaders (w : World) (r : Response) : Response :=
  (r.addHeader (lit "Date") w.date).addHeader (lit "Server") (lit "WNZA")

def statusText : StatusCode → Bytes
  | .OK => lit "200 OK"
  | .BAD_REQ => lit "400 Bad Request"
  | .NOT_FOUND => lit "404 Not Found"

def head (r : Response) : Bytes :=
  lit "HTTP/1.1 " ++ statusText r.code ++ lit "\r\n" ++
    r.headers.toList.flatMap (fun h => h.1 ++ lit ": " ++ h.2 ++ lit "\r\n") ++ lit "\r\n"

/-- The two buffers that are written. -/
def build (r : Response) : List Bytes := [r.head, r.body]

end Response

/-- The abstract class `request_handler`. -/
structure RequestHandler where
  handleRequest : World → Request → Except Fault Response
  getHandlerName : Bytes

/-- The array `methods` of the handlers; it has no entry for `INVALID`. -/
def methodName : Method → Option Bytes
  | .GET => some (lit "GET")
  | .POST => some (lit "POST")
  | .PUT => some (lit "PUT")
  | .HEAD => some (lit "HEAD")
  | .INVALID => none

/-- The request line and the header lines that the echo handler and the proxy write, in the
order of the header map. -/
def requestHead (name : Bytes) (req : Request) : Bytes :=
  name ++ lit " " ++ req.uri ++ lit " " ++ req.version ++ lit "\r\n" ++
    req.headers.toList.flatMap (fun entry => entry.1 ++ lit ": " ++ entry.2 ++ lit "\r\n")

theorem methodName_spec {m : Method} {name : Bytes} (h : methodName m = some name) :
    IsTokenWord name ∧ methodOf name = m := by
  cases m with
  | INVALID => simp [methodName] at h
  | _ =>
      obtain rfl := Option.some.inj h
      exact ⟨by decide, by decide⟩

theorem exists_methodName {m : Method} (h : m ≠ .INVALID) : ∃ name, methodName m = some name := by
  cases m with
  | INVALID => exact absurd rfl h
  | _ => exact ⟨_, rfl⟩

theorem requestHead_eq_head (l : RequestLine) (req : Request) (hu : req.uri = l.uri)
    (hv : req.version = l.version) :
    requestHead l.method req = head l req.headers.toList := by
  have space : lit " " = [SP] := by decide
  have line : lit "\r\n" = crlf := by decide
  have colon : lit ": " = [COLON, SP] := by decide
  have entries : (fun entry : Bytes × Bytes => entry.1 ++ lit ": " ++ entry.2 ++ lit "\r\n") =
      headerLine := by
    funext h
    simp only [headerLine, colon, line, List.append_assoc, List.cons_append, List.nil_append]
  rw [requestHead, entries]
  simp only [head, RequestLine.text, hu, hv, space, line, List.append_assoc, List.cons_append,
    List.nil_append]

end Wnza.Handler.Basic
