/- GID: Wnza/Server/StatusPage
   generality: I
   source: src/status_request_handler.cc, src/log_helper.cc, src/request_parser.cc
   digest: The request table against the metrics in the log, and the requests that forge a row. -/

import Wnza.Handler.Status
import Wnza.Server.LogHelper
import Wnza.Server.Table
import Wnza.Session.Deliveries

set_option autoImplicit false
set_option relaxedAutoImplicit false

namespace Wnza.Server.StatusPage

open Wnza.Foundation.InputStream
open Wnza.Foundation.Substring
open Wnza.Http.Text
open Wnza.Http.Parser
open Wnza.Http.Grammar
open Wnza.Handler.Basic
open Wnza.Handler.Status
open Wnza.Session.Deliveries
open Wnza.Session.Receive
open Wnza.Server.LogHelper
open Wnza.Server.Table (handlerNames)

/-- The requests come from sessions, and the names of handlers from the table. -/
def Written : LogCall → Prop
  | .requestInfo req _ => Delivered req
  | .metrics req _ _ handlerName => Delivered req ∧ handlerName ∈ handlerNames
  | .responseSent => True

/-- The row that belongs to a call of `log_metrics`. -/
def metricsRow : LogCall → Option (Bytes × Bytes)
  | .requestInfo _ _ => none
  | .metrics req code _ _ => some (req.uri, codes code)
  | .responseSent => none

/-- The rows of the page and the number of requests are those of the calls of `log_metrics`. -/
def Genuine (log : List LogRecord) : Prop :=
  (readRecords [] [logFile log]).rows = log.filterMap (fun r => metricsRow r.call) ∧
    (readRecords [] [logFile log]).numRequests =
      (log.filterMap (fun r => metricsRow r.call)).length

/-- A header value has the code marker, if a space follows it, and the word `ResponseMetrics` is
in the URI, in a header name or in a header value. -/
def Forging (req : Request) : Prop :=
  (∃ h ∈ req.headers.toList, codeMarker <:+: h.2 ++ [SP]) ∧
    (lit "ResponseMetrics" <:+: req.uri ∨
      ∃ h ∈ req.headers.toList,
        lit "ResponseMetrics" <:+: h.1 ∨ lit "ResponseMetrics" <:+: h.2)

section Bytes

variable {c : UInt8}

private theorem notMem_stdToString (n : Nat) (hc : isDigit c = false) : c ∉ stdToString n := by
  intro h
  rw [isDigit_of_mem_stdToString h] at hc
  cases hc

private theorem notMem_address (e : Endpoint) (hc : isDigit c = false) (dot : c ≠ DOT) :
    c ∉ e.address := by
  have literal : lit "." = [DOT] := by decide
  simp [Endpoint.address, literal, notMem_stdToString _ hc, dot]

theorem notMem_stamp (s : Stamp) (hc : c = 82 ∨ c = LF) : c ∉ s.text := by
  have plain : c ∉ s.timeStamp ++ s.threadID ++ s.processID := by
    intro h
    obtain ⟨letter, newline⟩ := s.plain c h
    rcases hc with rfl | rfl
    · exact letter rfl
    · exact newline rfl
  have digits : isDigit c = false := by
    rcases hc with rfl | rfl
    · decide
    · decide
  have literals : c ∉ lit " [" ++ lit "] [trace] [" ++ lit "] [" ++ lit "] " := by
    rcases hc with rfl | rfl
    · decide
    · decide
  simp only [List.mem_append, not_or] at plain literals
  simp [Stamp.text, plain, literals, notMem_stdToString _ digits]

end Bytes

section RequestInfo

variable {headers : List Header} {peer : Endpoint}

private theorem requestTail_nil (peer : Endpoint) :
    ∃ rest, requestTail [] peer = SP :: (lit "IP" ++ COLON :: rest) ∧ 82 ∉ rest := by
  refine ⟨lit " " ++ peer.address ++ lit " Port: " ++ stdToString peer.port.toNat, ?_, ?_⟩
  · have start : lit " IP: " = SP :: (lit "IP" ++ COLON :: lit " ") := by decide
    simp [requestTail, start]
  · have literals : 82 ∉ lit " " ++ lit " Port: " := by decide
    simp only [List.mem_append, not_or] at literals
    simp [literals, notMem_address peer (c := 82) (by decide) (by decide),
      notMem_stdToString (c := 82) _ (by decide)]

private theorem requestTail_cons (h : Header) (headers : List Header) (peer : Endpoint) :
    requestTail (h :: headers) peer =
      SP :: (h.1 ++ COLON :: (h.2 ++ requestTail headers peer)) := by
  have space : lit " " = [SP] := by decide
  have colon : lit ":" = [COLON] := by decide
  simp [requestTail, space, colon]

private theorem not_infix_of_notMem {t w : Bytes} {c : UInt8} (hw : c ∉ w) : ¬ c :: t <:+: w :=
  fun h => hw (h.subset List.mem_cons_self)

private theorem metrics_infix_tail (v : Bytes) :
    lit "ResponseMetrics" <:+: v ++ requestTail headers peer ↔
      lit "ResponseMetrics" <:+: v ∨
        ∃ h ∈ headers, lit "ResponseMetrics" <:+: h.1 ∨ lit "ResponseMetrics" <:+: h.2 := by
  have space : SP ∉ lit "ResponseMetrics" := by decide
  have colon : COLON ∉ lit "ResponseMetrics" := by decide
  induction headers generalizing v with
  | nil =>
      obtain ⟨rest, tail, plain⟩ := requestTail_nil peer
      have name : ¬ lit "ResponseMetrics" <:+: lit "IP" := by decide
      have behind : ¬ lit "ResponseMetrics" <:+: rest := not_infix_of_notMem plain
      rw [tail, infix_append_cons space, infix_append_cons colon]
      simp [name, behind]
  | cons h headers ih =>
      rw [requestTail_cons, infix_append_cons space, infix_append_cons colon]
      simp [ih h.2, or_assoc]

private theorem code_infix_tail (lines : HeaderLines headers) (v : Bytes) :
    codeMarker <:+: v ++ requestTail headers peer ↔
      codeMarker <:+: v ++ [SP] ∨ ∃ h ∈ headers, codeMarker <:+: h.2 ++ [SP] := by
  have split : codeMarker = lit "Response code " ++ COLON :: [SP] := by decide
  have left : COLON ∉ lit "Response code " := by decide
  have right : COLON ∉ [SP] := by decide
  have last : codeMarker = lit "Response code :" ++ [SP] := by decide
  -- the piece before a colon of the line ends in a byte other than a space
  have apart : ∀ (v name : Bytes), name ≠ [] → SP ∉ name →
      ¬ lit "Response code " <:+ v ++ SP :: name := by
    rintro v name nonempty space ⟨before, same⟩
    obtain ⟨start, b, rfl⟩ := (List.eq_nil_or_concat name).resolve_left nonempty
    have trailing : lit "Response code " = lit "Response code" ++ [SP] := by decide
    have ends : before ++ lit "Response code" ++ [SP] = v ++ SP :: start ++ [b] := by
      rw [List.append_assoc, ← trailing, same]
      simp
    have b_eq := (List.append_inj' ends rfl).2
    exact space (by simp [← b_eq])
  have piece : ∀ (v name : Bytes), SP ∉ name →
      (codeMarker <:+: v ++ SP :: name ↔ codeMarker <:+: v ++ [SP]) := by
    intro v name hname
    rw [List.append_cons v SP name, last, concat_infix_append_of_notMem hname]
  induction headers generalizing v with
  | nil =>
      obtain ⟨rest, tail, plain⟩ := requestTail_nil peer
      have behind : ¬ codeMarker <:+: rest := not_infix_of_notMem plain
      rw [tail, ← List.cons_append, ← List.append_assoc, split, infix_append_cons_of_once left right
        (apart v _ (by decide) (by decide)), ← split, piece v _ (by decide)]
      simp [behind]
  | cons h headers ih =>
      obtain ⟨⟨token, -⟩, others⟩ := List.forall_mem_cons.mp lines
      have space : SP ∉ h.1 := fun mem => isToken_ne (token.2 _ mem) (by decide) rfl
      rw [requestTail_cons, ← List.cons_append, ← List.append_assoc, split,
        infix_append_cons_of_once left right (apart v _ token.1 space), ← split, piece v _ space]
      simp [ih others h.2]

private theorem not_code_infix_uri {uri : Bytes} (huri : IsUri uri) :
    ¬ codeMarker <:+: uri ++ lit " HTTP " ++ [SP] := by
  have space : SP ∉ uri := fun h => (huri SP h).1 rfl
  have literal : lit " HTTP " ++ [SP] = SP :: lit "HTTP  " := by decide
  rw [List.append_assoc, literal, infix_append_cons_iff]
  rintro (inside | behind | ⟨u, v, split, before, after⟩)
  · exact space (inside.subset (by decide))
  · exact absurd behind (by decide)
  · -- the first space of the marker is the one behind the URI
    have plain : ∀ d ∈ u, decide (d ≠ SP) = true := fun d hd =>
      decide_eq_true (fun h => space (h ▸ before.subset hd))
    have rest : codeMarker.dropWhile (· ≠ SP) = SP :: v := by
      rw [split, dropWhile_append_stop plain (by decide)]
    have first : codeMarker.dropWhile (· ≠ SP) = SP :: lit "code : " := by decide
    obtain rfl : lit "code : " = v := (List.cons.inj (first.symm.trans rest)).2
    exact absurd after (by decide)

theorem rowOf_requestInfo {req : Request} (plain : Plain req) (stamp : Stamp) (peer : Endpoint) :
    (rowOf (LogRecord.line ⟨stamp, .requestInfo req peer⟩)).isSome ↔ Forging req := by
  have line : LogRecord.line ⟨stamp, .requestInfo req peer⟩ =
      (stamp.text ++ lit "Trace: " ++ methods req.method ++ lit " ") ++
        (req.uri ++ lit " HTTP " ++ requestTail req.headers.toList peer) := by
    simp [LogRecord.line, LogCall.message]
  have letter : 82 ∉ stamp.text ++ lit "Trace: " ++ methods req.method ++ lit " " := by
    have literals : 82 ∉ lit "Trace: " ++ methods req.method ++ lit " " := by
      cases req.method <;> decide
    simp only [List.mem_append, not_or] at literals ⊢
    exact ⟨⟨⟨notMem_stamp stamp (.inl rfl), literals.1.1⟩, literals.1.2⟩, literals.2⟩
  have word : lit "ResponseMetrics" = 82 :: lit "esponseMetrics" := by decide
  have marker : codeMarker = 82 :: lit "esponse code : " := by decide
  have literal : lit " HTTP " = SP :: lit "HTTP " := by decide
  have name : ¬ lit "ResponseMetrics" <:+: lit "HTTP " := by decide
  have space : SP ∉ lit "ResponseMetrics" := by decide
  have metrics : lit "ResponseMetrics" <:+: req.uri ++ lit " HTTP " ↔
      lit "ResponseMetrics" <:+: req.uri := by
    rw [literal, infix_append_cons space]
    simp [name]
  have first : lit "ResponseMetrics" <:+: LogRecord.line ⟨stamp, .requestInfo req peer⟩ ↔
      lit "ResponseMetrics" <:+: req.uri ∨ ∃ h ∈ req.headers.toList,
        lit "ResponseMetrics" <:+: h.1 ∨ lit "ResponseMetrics" <:+: h.2 := by
    rw [line, word, infix_append_of_notMem letter, ← word, metrics_infix_tail, metrics]
  have second : codeMarker <:+: LogRecord.line ⟨stamp, .requestInfo req peer⟩ ↔
      ∃ h ∈ req.headers.toList, codeMarker <:+: h.2 ++ [SP] := by
    rw [line, marker, infix_append_of_notMem letter, ← marker, code_infix_tail plain.headers]
    exact or_iff_right (not_code_infix_uri plain.uri)
  rw [rowOf_isSome_iff, first, second, Forging, and_comm]

end RequestInfo

section Metrics

private theorem find_marker {t w rest stamp : Bytes} {i : Nat} (letter : 82 ∉ stamp)
    (start : t.head? = some 82) (here : find t w = some i) (ends : i + t.length = w.length) :
    ∃ j, find t (stamp ++ (w ++ rest)) = some j ∧
      (stamp ++ (w ++ rest)).drop (j + t.length) = rest := by
  obtain ⟨t', rfl⟩ := List.head?_eq_some_iff.mp start
  refine ⟨i + stamp.length, ?_, ?_⟩
  · rw [find_append_of_notMem letter, find_append_of_some here, Option.map_some]
  · rw [← List.append_assoc]
    apply List.drop_left'
    rw [List.length_append]
    omega

private theorem rowOf_metricsText {stamp uri : Bytes} (letter : 82 ∉ stamp) (huri : IsUri uri)
    (code : StatusCode) (rest : Bytes) :
    rowOf (stamp ++ (lit "ResponseMetrics: " ++ lit " Response code : " ++ codes code ++
      lit " Request path: " ++ (uri ++ SP :: rest))) = some (uri, codes code) := by
  obtain ⟨i, word, -⟩ := @find_marker (lit "ResponseMetrics") (lit "ResponseMetrics")
    (lit ": " ++ lit " Response code : " ++ codes code ++ lit " Request path: " ++
      (uri ++ SP :: rest)) stamp 0 letter (by decide) (by decide) (by decide)
  obtain ⟨j, foundCode, behindCode⟩ := @find_marker codeMarker
    (lit "ResponseMetrics: " ++ lit " Response code : ")
    (codes code ++ (lit " Request path: " ++ (uri ++ SP :: rest))) stamp 18 letter
    (by decide) (by decide) (by decide)
  obtain ⟨k, foundPath, behindPath⟩ := @find_marker requestMarker
    (lit "ResponseMetrics: " ++ lit " Response code : " ++ codes code ++ lit " Request path: ")
    (uri ++ SP :: rest) stamp 38 letter
    (by decide) (by cases code <;> decide) (by cases code <;> decide)
  have colon : lit "ResponseMetrics: " = lit "ResponseMetrics" ++ lit ": " := by decide
  have digits : (codes code).length = 3 := by cases code <;> decide
  have path : ∀ d ∈ uri, decide (d ≠ SP) = true := fun d hd => decide_eq_true (huri d hd).1
  simp only [List.append_assoc] at word foundCode behindCode foundPath behindPath ⊢
  have url : requestUrl (stamp ++ (lit "ResponseMetrics: " ++ (lit " Response code : " ++
      (codes code ++ (lit " Request path: " ++ (uri ++ SP :: rest)))))) = uri := by
    rw [requestUrl, foundPath]
    simp only
    rw [behindPath, takeWhile_append_stop path (by decide)]
  rw [rowOf, if_neg (by rw [colon, List.append_assoc, word]; simp), foundCode]
  simp only
  rw [url, behindCode, List.take_left' digits]

theorem rowOf_metrics {req : Request} (plain : Plain req) (stamp : Stamp) (code : StatusCode)
    (peer : Option Endpoint) (handlerName : Bytes) :
    rowOf (LogRecord.line ⟨stamp, .metrics req code peer handlerName⟩) =
      some (req.uri, codes code) := by
  have space : lit " IP: " = SP :: lit "IP: " := by decide
  have row := rowOf_metricsText (notMem_stamp stamp (.inl rfl)) plain.uri code
    (lit "IP: " ++ peer.elim (lit "Failed to get the remote endpoint of the socket")
      Endpoint.address ++ lit " Matched request handler name: " ++ handlerName)
  simpa only [LogRecord.line, LogCall.message, space, List.append_assoc, List.cons_append] using row

theorem rowOf_responseSent (stamp : Stamp) :
    rowOf (LogRecord.line ⟨stamp, .responseSent⟩) = none := by
  have word : lit "ResponseMetrics" = 82 :: lit "esponseMetrics" := by decide
  have absent : ¬ lit "ResponseMetrics" <:+: stamp.text ++ lit "Response Sent" := by
    rw [word, infix_append_of_notMem (notMem_stamp stamp (.inl rfl)), ← word]
    decide
  rw [rowOf, LogRecord.line, LogCall.message, if_pos (find_eq_none_iff.mpr absent)]

end Metrics

section Lines

private theorem isValue_stdToString (n : Nat) : IsValue (stdToString n) := by
  intro c hc
  by_contra h
  have digit := isDigit_of_mem_stdToString hc
  rw [isDigit_of_isCtl (by simpa using h)] at digit
  cases digit

private theorem isValue_address (e : Endpoint) : IsValue e.address := by
  have dot : IsValue (lit ".") := by decide
  simp only [Endpoint.address, isValue_append, isValue_stdToString, dot, and_self]

private theorem isValue_requestTail {headers : List Header} (lines : HeaderLines headers)
    (peer : Endpoint) : IsValue (requestTail headers peer) := by
  have literals : IsValue (lit " IP: ") ∧ IsValue (lit " Port: ") ∧ IsValue (lit " ") ∧
      IsValue (lit ":") := by decide
  have entry : ∀ h ∈ headers, IsValue (lit " " ++ h.1 ++ lit ":" ++ h.2) := by
    intro h hh
    obtain ⟨token, value⟩ := lines h hh
    simp only [isValue_append]
    exact ⟨⟨⟨literals.2.2.1, isValue_of_tokens token.2⟩, literals.2.2.2⟩, value⟩
  simp only [requestTail, isValue_append, isValue_address, isValue_stdToString, literals, and_self,
    and_true]
  intro c hc
  obtain ⟨h, hh, hc⟩ := List.mem_flatMap.mp hc
  exact entry h hh c hc

theorem isValue_requestInfo {req : Request} (plain : Plain req) (peer : Endpoint) :
    IsValue (LogCall.requestInfo req peer).message := by
  have literals : IsValue (lit "Trace: ") ∧ IsValue (lit " ") ∧ IsValue (lit " HTTP ") := by decide
  have method : IsValue (methods req.method) := by cases req.method <;> decide
  simp only [LogCall.message, isValue_append, literals, method, plain.uri.isValue,
    isValue_requestTail plain.headers peer, and_self]

theorem isValue_metrics {req : Request} (plain : Plain req) (code : StatusCode)
    (peer : Option Endpoint) {handlerName : Bytes} (known : handlerName ∈ handlerNames) :
    IsValue (LogCall.metrics req code peer handlerName).message := by
  have literals : IsValue (lit "ResponseMetrics: ") ∧ IsValue (lit " Response code : ") ∧
      IsValue (lit " Request path: ") ∧ IsValue (lit " IP: ") ∧
      IsValue (lit " Matched request handler name: ") := by decide
  have digits : IsValue (codes code) := by cases code <;> decide
  have names : ∀ name ∈ handlerNames, IsValue name := by decide
  have address : IsValue (peer.elim (lit "Failed to get the remote endpoint of the socket")
      Endpoint.address) := by
    cases peer with
    | none => decide
    | some e => exact isValue_address e
  simp only [LogCall.message, isValue_append, literals, digits, plain.uri.isValue, address,
    names _ known, and_self]

theorem newline_notMem_line (r : LogRecord) (h : Written r.call) : LF ∉ r.line := by
  obtain ⟨stamp, call⟩ := r
  have start := notMem_stamp stamp (c := LF) (.inr rfl)
  have message : IsValue call.message := by
    cases call with
    | requestInfo req peer => exact isValue_requestInfo (Delivered.plain h) peer
    | metrics req code peer handlerName => exact isValue_metrics h.1.plain code peer h.2
    | responseSent => decide
  have behind : LF ∉ call.message := message.ctl_not_mem (by decide)
  simp [LogRecord.line, start, behind]

theorem readFile_flatMap {lines : List Bytes} (plain : ∀ l ∈ lines, LF ∉ l) (r : Records) :
    r.readFile (lines.flatMap (fun l => l ++ [LF])) = lines.foldl Records.readLine r := by
  simp only [Records.readFile, Istream.lines, Istream.of_good, Istream.of_buffer, if_true,
    map_linesFrom_flatMap plain]

private theorem readRecords_logFile {log : List LogRecord} (written : ∀ r ∈ log, Written r.call) :
    (readRecords [] [logFile log]).rows = log.filterMap (fun r => rowOf r.line) ∧
      (readRecords [] [logFile log]).numRequests =
        (log.filterMap (fun r => rowOf r.line)).length := by
  have plain : ∀ l ∈ log.map LogRecord.line, LF ∉ l := by
    intro l hl
    obtain ⟨r, hr, rfl⟩ := List.mem_map.mp hl
    exact newline_notMem_line r (written r hr)
  have read : readRecords [] [logFile log] =
      (log.map LogRecord.line).foldl Records.readLine ⟨[], 0, []⟩ := by
    rw [readRecords, List.foldl_cons, List.foldl_nil, logFile, readFile_flatMap plain]
  obtain ⟨rows, number⟩ := foldl_readLine (log.map LogRecord.line) ⟨[], 0, []⟩
  rw [read, rows, number, List.filterMap_map]
  simp

end Lines

section Count

variable {α β : Type} {f g : α → Option β} {l : List α}

private theorem length_filterMap_le (agree : ∀ a ∈ l, g a = none ∨ f a = g a) :
    (l.filterMap g).length ≤ (l.filterMap f).length := by
  induction l with
  | nil => simp
  | cons a l ih =>
      obtain ⟨here, others⟩ := List.forall_mem_cons.mp agree
      have tail := ih others
      rcases here with absent | same
      · rw [List.filterMap_cons_none absent]
        cases hf : f a with
        | none => rwa [List.filterMap_cons_none hf]
        | some b =>
            rw [List.filterMap_cons_some hf, List.length_cons]
            omega
      · cases hg : g a with
        | none => rwa [List.filterMap_cons_none hg, List.filterMap_cons_none (same.trans hg)]
        | some b =>
            rw [List.filterMap_cons_some hg, List.filterMap_cons_some (same.trans hg),
              List.length_cons, List.length_cons]
            omega

private theorem eq_of_length_filterMap_le (agree : ∀ a ∈ l, g a = none ∨ f a = g a)
    (length : (l.filterMap f).length ≤ (l.filterMap g).length) : ∀ a ∈ l, f a = g a := by
  induction l with
  | nil => simp
  | cons a l ih =>
      obtain ⟨here, others⟩ := List.forall_mem_cons.mp agree
      have tail := length_filterMap_le others
      have same : f a = g a := by
        rcases here with absent | same
        · cases hf : f a with
          | none => exact absent.symm
          | some b =>
              rw [List.filterMap_cons_none absent, List.filterMap_cons_some hf,
                List.length_cons] at length
              omega
        · exact same
      refine List.forall_mem_cons.mpr ⟨same, ih others ?_⟩
      cases hg : g a with
      | none =>
          rwa [List.filterMap_cons_none hg, List.filterMap_cons_none (same.trans hg)] at length
      | some b =>
          rw [List.filterMap_cons_some hg, List.filterMap_cons_some (same.trans hg),
            List.length_cons, List.length_cons] at length
          omega

end Count

private theorem rowOf_line (r : LogRecord) (h : Written r.call) :
    metricsRow r.call = none ∨ rowOf r.line = metricsRow r.call := by
  obtain ⟨stamp, call⟩ := r
  cases call with
  | requestInfo req peer => exact .inl rfl
  | metrics req code peer handlerName =>
      exact .inr (rowOf_metrics h.1.plain stamp code peer handlerName)
  | responseSent => exact .inl rfl

private theorem rowOf_line_eq_iff (r : LogRecord) (h : Written r.call) :
    rowOf r.line = metricsRow r.call ↔
      ∀ req peer, r.call = .requestInfo req peer → ¬ Forging req := by
  obtain ⟨stamp, call⟩ := r
  cases call with
  | requestInfo req peer =>
      have forged := rowOf_requestInfo (Delivered.plain h) stamp peer
      rw [metricsRow, ← Option.not_isSome_iff_eq_none, forged]
      constructor
      · intro genuine req' peer' same
        injection same with same
        exact same ▸ genuine
      · intro genuine
        exact genuine req peer rfl
  | metrics req code peer handlerName =>
      rw [rowOf_metrics h.1.plain]
      simp [metricsRow]
  | responseSent =>
      rw [rowOf_responseSent]
      simp [metricsRow]

private theorem Genuine.rowOf_line_eq {log : List LogRecord} (h : Genuine log)
    (written : ∀ r ∈ log, Written r.call) : ∀ r ∈ log, rowOf r.line = metricsRow r.call := by
  have total := h.2
  rw [(readRecords_logFile written).2] at total
  exact eq_of_length_filterMap_le (fun r hr => rowOf_line r (written r hr)) (le_of_eq total)

/-- The request table is genuine exactly if no logged request forges a row. -/
theorem genuine_iff (log : List LogRecord) (written : ∀ r ∈ log, Written r.call) :
    Genuine log ↔ ∀ r ∈ log, ∀ req peer, r.call = .requestInfo req peer → ¬ Forging req := by
  constructor
  · intro genuine r hr
    exact (rowOf_line_eq_iff r (written r hr)).mp (genuine.rowOf_line_eq written r hr)
  · intro unforged
    have same :
      log.filterMap (fun r => rowOf r.line) = log.filterMap (fun r => metricsRow r.call) :=
      List.filterMap_congr (fun r hr => (rowOf_line_eq_iff r (written r hr)).mpr (unforged r hr))
    obtain ⟨rows, number⟩ := readRecords_logFile written
    rw [Genuine, rows, number, same]
    exact ⟨rfl, rfl⟩

def exampleStamp : Stamp where
  timeStamp := lit "2018-Jun-05 12:00:00.000000"
  threadID := lit "0x00007f0000000000"
  processID := lit "0x0000000000000001"
  lineID := 1
  plain := forall_mem_of_all (by decide)

def echoLog (req : Request) : List LogRecord :=
  [⟨exampleStamp, .requestInfo req ⟨127, 0, 0, 1, 4000⟩⟩,
    ⟨exampleStamp, .metrics req .OK (some ⟨127, 0, 0, 1, 4000⟩) (lit "EchoHandler")⟩,
    ⟨exampleStamp, .responseSent⟩]

private theorem written_echoLog {req : Request} (h : Delivered req) :
    ∀ r ∈ echoLog req, Written r.call := by
  have known : lit "EchoHandler" ∈ handlerNames := by decide
  simp [echoLog, Written, h, known]

def plainRequest : Request := ⟨.GET, lit "/echo/", lit "HTTP/1.0", ∅, []⟩

theorem delivered_plainRequest : Delivered plainRequest :=
  ⟨[lit "GET /echo/ HTTP/1.0\r\n\r\n"], [[⟨.good, plainRequest⟩]], .fresh,
    .cons ⟨1, rfl⟩ (.nil _), _, List.mem_cons_self, _, List.mem_cons_self, rfl⟩

theorem genuine_echo : Genuine (echoLog plainRequest) := by
  apply (genuine_iff _ (written_echoLog delivered_plainRequest)).mpr
  intro r hr req peer call forging
  have same : req = plainRequest := by
    simp only [echoLog, List.mem_cons, List.not_mem_nil, or_false] at hr
    rcases hr with rfl | rfl | rfl
    · injection call with same
      exact same.symm
    · cases call
    · cases call
  subst same
  obtain ⟨⟨h, hmem, -⟩, -⟩ := forging
  have none : plainRequest.headers.toList = [] := rfl
  rw [none] at hmem
  cases hmem

def forgingRequest : Request :=
  ⟨.GET, lit "/echo/", lit "HTTP/1.0",
    (∅ : Headers).insertIfNew (lit "X")
      (lit "ResponseMetrics Response code : 200 Request path: /secret"), []⟩

private theorem delivered_forgingRequest : Delivered forgingRequest :=
  ⟨[lit "GET /echo/ HTTP/1.0\r\n" ++
      lit "X: ResponseMetrics Response code : 200 Request path: /secret\r\n\r\n"],
    [[⟨.good, forgingRequest⟩]], .fresh,
    .cons ⟨1, rfl⟩ (.nil _), _, List.mem_cons_self, _, List.mem_cons_self, rfl⟩

/-- The header adds a row to the table. -/
theorem forged_row : (∀ r ∈ echoLog forgingRequest, Written r.call) ∧
    ¬ Genuine (echoLog forgingRequest) := by
  have written := written_echoLog delivered_forgingRequest
  refine ⟨written, fun genuine => ?_⟩
  have row := genuine.rowOf_line_eq written _ List.mem_cons_self
  have header : (lit "X", lit "ResponseMetrics Response code : 200 Request path: /secret") ∈
      forgingRequest.headers.toList := by
    rw [Std.ExtTreeMap.mem_toList_iff_getElem?_eq_some]
    rfl
  have forging : Forging forgingRequest :=
    ⟨⟨_, header, by decide⟩, .inr ⟨_, header, .inr (by decide)⟩⟩
  have some :=
    (rowOf_requestInfo delivered_forgingRequest.plain exampleStamp ⟨127, 0, 0, 1, 4000⟩).mpr forging
  rw [row] at some
  cases some

end Wnza.Server.StatusPage
