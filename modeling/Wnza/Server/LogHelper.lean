/- GID: Wnza/Server/LogHelper
   generality: I
   source: src/log_helper.cc
   digest: The lines that the server writes to its log file for requests, responses and handlers. -/

import Wnza.Config.Tree
import Wnza.Handler.Basic

set_option autoImplicit false
set_option relaxedAutoImplicit false

namespace Wnza.Server.LogHelper

open Wnza.Http.Text
open Wnza.Http.Parser
open Wnza.Http.Grammar (Header)
open Wnza.Config.Tree
open Wnza.Handler.Basic

/-- The peer of a socket.  The acceptor listens on `tcp::v4()` only. -/
structure Endpoint where
  a : UInt8
  b : UInt8
  c : UInt8
  d : UInt8
  port : UInt16

def Endpoint.address (e : Endpoint) : Bytes :=
  stdToString e.a.toNat ++ lit "." ++ stdToString e.b.toNat ++ lit "." ++
    stdToString e.c.toNat ++ lit "." ++ stdToString e.d.toNat

/-- The attributes that the logging library puts before a message.  A time stamp has an English
month name, of which none has the letter `R`, and the thread and the process are hexadecimal
numbers. -/
structure Stamp where
  timeStamp : Bytes
  threadID : Bytes
  processID : Bytes
  lineID : Nat
  plain : ∀ c ∈ timeStamp ++ threadID ++ processID, c ≠ 82 ∧ c ≠ LF

/-- `COMMON_FMT` up to the message; all messages here have the severity `trace`. -/
def Stamp.text (s : Stamp) : Bytes :=
  s.timeStamp ++ lit " [" ++ s.threadID ++ lit "] [trace] [" ++ s.processID ++ lit "] [" ++
    stdToString s.lineID ++ lit "] "

/-- The array `methods`, which has an entry for `INVALID` here. -/
def methods : Method → Bytes
  | .GET => lit "GET"
  | .POST => lit "POST"
  | .PUT => lit "PUT"
  | .HEAD => lit "HEAD"
  | .INVALID => lit "INVALID"

def codes : StatusCode → Bytes
  | .BAD_REQ => lit "400"
  | .NOT_FOUND => lit "404"
  | .OK => lit "200"

/-- A call of one of the functions that log the requests and responses of a session.  The socket
may have lost its peer when the metrics are logged. -/
inductive LogCall
  | requestInfo (req : Request) (peer : Endpoint)
  | metrics (req : Request) (code : StatusCode) (peer : Option Endpoint) (handlerName : Bytes)
  | responseSent

/-- The headers and the peer in the line of `log_request_info`. -/
def requestTail (headers : List Header) (peer : Endpoint) : Bytes :=
  headers.flatMap (fun h => lit " " ++ h.1 ++ lit ":" ++ h.2) ++
    (lit " IP: " ++ peer.address ++ lit " Port: " ++ stdToString peer.port.toNat)

def LogCall.message : LogCall → Bytes
  | .requestInfo req peer =>
      lit "Trace: " ++ methods req.method ++ lit " " ++ req.uri ++ lit " HTTP " ++
        requestTail req.headers.toList peer
  | .metrics req code peer handlerName =>
      lit "ResponseMetrics: " ++ lit " Response code : " ++ codes code ++ lit " Request path: " ++
        req.uri ++ lit " IP: " ++
        peer.elim (lit "Failed to get the remote endpoint of the socket") Endpoint.address ++
        lit " Matched request handler name: " ++ handlerName
  | .responseSent => lit "Response Sent"

structure LogRecord where
  stamp : Stamp
  call : LogCall

def LogRecord.line (r : LogRecord) : Bytes := r.stamp.text ++ r.call.message

def handlersInfo (results : List LocationParseResult) : Bytes :=
  results.flatMap (fun res => res.handlerName ++ lit " " ++ res.uri ++ lit " ")

/-- The message of `log_all_handlers`. -/
def logAllHandlers (config : NginxConfig) : Except Fault Bytes :=
  match config.getLocationResult with
  | .error e => .error e
  | .ok results => .ok (lit "all handlers: " ++ handlersInfo results)

def logFile (log : List LogRecord) : Bytes :=
  (log.map LogRecord.line).flatMap (fun l => l ++ [LF])

end Wnza.Server.LogHelper
