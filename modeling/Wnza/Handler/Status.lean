/- GID: Wnza/Handler/Status
   generality: I
   source: src/status_request_handler.cc
   digest: The status page, which is made from the lines of the log files. -/

import Wnza.Foundation.InputStream
import Wnza.Foundation.Substring
import Wnza.Handler.Basic

set_option autoImplicit false
set_option relaxedAutoImplicit false

namespace Wnza.Handler.Status

open Wnza.Foundation.InputStream
open Wnza.Foundation.Substring
open Wnza.Http.Text
open Wnza.Http.Parser
open Wnza.Handler.Basic
open Wnza.Handler.Basic.Response

def intervalLen : Nat := 50

def column (s : Bytes) : Bytes := s ++ List.replicate (intervalLen - s.length) SP

/-- The variables of the loop over a line with `all handlers:`. -/
structure HandlerScan where
  allHandlers : Bytes
  count : Nat
  temp : Bytes

def HandlerScan.next (s : HandlerScan) (c : UInt8) : HandlerScan :=
  if c = SP then
    { allHandlers := s.allHandlers ++
        if s.count % 2 = 0 then column s.temp else s.temp ++ lit "\r\n"
      count := s.count + 1
      temp := [] }
  else { s with temp := s.temp ++ [c] }

def scanHandlers (line : Bytes) (found : Nat) : Bytes :=
  ((line.drop (found + 14)).foldl HandlerScan.next ⟨[], 0, []⟩).allHandlers

def codeMarker : Bytes := lit "Response code : "

def requestMarker : Bytes := lit "Request path: "

/-- What stands behind the request marker, up to a space.  Without a marker, the position `npos`
and the length of the marker add up to one less than the length. -/
def requestUrl (line : Bytes) : Bytes :=
  let start := match find requestMarker line with
    | some found => found + requestMarker.length
    | none => requestMarker.length - 1
  (line.drop start).takeWhile (· ≠ SP)

def rowOf (line : Bytes) : Option (Bytes × Bytes) :=
  if find (lit "ResponseMetrics") line = none then none
  else
    match find codeMarker line with
    | none => none
    | some found => some (requestUrl line, (line.drop (found + codeMarker.length)).take 3)

/-- What the loops of `get_request_records` have collected. -/
structure Records where
  allHandlers : Bytes
  numRequests : Nat
  rows : List (Bytes × Bytes)

def Records.readLine (r : Records) (line : Bytes) : Records :=
  { allHandlers :=
      match find (lit "all handlers:") line with
      | some found => scanHandlers line found
      | none => r.allHandlers
    numRequests := r.numRequests + if (rowOf line).isSome then 1 else 0
    rows := r.rows ++ (rowOf line).toList }

/-- The lines of a log file, one call of `std::getline` after the other. -/
def Records.readFile (r : Records) (file : Bytes) : Records :=
  (((Istream.of file).lines LF).map Prod.fst).foldl Records.readLine r

/-- The loops over the log files that can be opened, given the handlers of earlier calls. -/
def readRecords (allHandlers : Bytes) (files : List Bytes) : Records :=
  files.foldl Records.readFile ⟨allHandlers, 0, []⟩

/-- The text that `get_request_records` returns. -/
def Records.text (r : Records) (hostName : Bytes) : Bytes :=
  lit "Total Requests: " ++ stdToString r.numRequests ++ lit "\n" ++
    lit "Current Host Name: " ++ hostName ++ lit "\n\n" ++
    column (lit "requests URL") ++ lit "response codes\r\n" ++
    r.rows.flatMap (fun row => column row.1 ++ row.2 ++ lit "\r\n")

def statusText (hostName : Bytes) (files : List Bytes) : Bytes :=
  let records := readRecords [] files
  column (lit "handlers name") ++ lit "URL prefixes\r\n" ++ records.allHandlers ++ lit "\r\n" ++
    records.text hostName

def statusResponse (hostName : Bytes) (files : List Bytes) (w : World) : Response :=
  makeDateServernameHeaders w <|
    ((((empty.setCode .OK).addHeader (lit "Content-Type") (lit "text/plain")).addHeader
      (lit "Content-Length") (stdToString (statusText hostName files).length)).addBody
      (statusText hostName files))

def statusRequestHandler (hostName : Bytes) (files : List Bytes) : RequestHandler where
  handleRequest w _ := .ok (statusResponse hostName files w)
  getHandlerName := lit "StatusHandler"

section Reading

variable {line : Bytes}

theorem foldl_readLine (lines : List Bytes) (r : Records) :
    (lines.foldl Records.readLine r).rows = r.rows ++ lines.filterMap rowOf ∧
      (lines.foldl Records.readLine r).numRequests =
        r.numRequests + (lines.filterMap rowOf).length := by
  induction lines generalizing r with
  | nil => simp
  | cons line lines ih =>
      obtain ⟨rows, number⟩ := ih (r.readLine line)
      rw [List.foldl_cons, rows, number]
      cases hrow : rowOf line with
      | none => simp [Records.readLine, hrow]
      | some row =>
          simp only [Records.readLine, hrow, Option.isSome_some, if_true, Option.toList_some,
            List.filterMap_cons_some hrow, List.length_cons, List.append_assoc,
            List.singleton_append, true_and]
          omega

theorem rowOf_isSome_iff :
    (rowOf line).isSome ↔ lit "ResponseMetrics" <:+: line ∧ codeMarker <:+: line := by
  by_cases metrics : lit "ResponseMetrics" <:+: line
  · have found : find (lit "ResponseMetrics") line ≠ none := fun h =>
      find_eq_none_iff.mp h metrics
    rw [rowOf, if_neg found]
    cases hcode : find codeMarker line with
    | none => simp [find_eq_none_iff.mp hcode]
    | some i =>
        have code : codeMarker <:+: line := by
          by_contra absent
          rw [find_eq_none_iff.mpr absent] at hcode
          cases hcode
        simp [metrics, code]
  · rw [rowOf, if_pos (find_eq_none_iff.mpr metrics)]
    simp [metrics]

end Reading

end Wnza.Handler.Status
