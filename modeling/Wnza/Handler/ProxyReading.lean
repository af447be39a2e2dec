/- GID: Wnza/Handler/ProxyReading
   generality: I
   source: src/reverse_proxy_request_handler.cc (send_request, handle_redirect, handle_request)
   digest: How the proxy reads an upstream response from the segments that a connection delivers. -/

import Wnza.Foundation.InputStream
import Wnza.Handler.ProxyTarget

set_option autoImplicit false
set_option relaxedAutoImplicit false

namespace Wnza.Handler.ProxyReading

open Wnza.Foundation.InputStream
open Wnza.Foundation.Substring
open Wnza.Http.Text
open Wnza.Http.Parser
open Wnza.Handler.Basic
open Wnza.Handler.Basic.Response
open Wnza.Handler.ProxyTarget
open Wnza.Handler.ReverseProxy
open Wnza.Handler.Static

/-- `stream >> status_code` for an `unsigned int`: a sign and digits; without digits, or above
the largest value, the extraction fails. -/
def unsigned (s : Istream UInt8) : Nat × Istream UInt8 :=
  let s := s.sentry isSpace
  if s.good then
    let (negative, text) := splitSign s.buffer
    let digits := text.takeWhile isDigit
    let rest := text.dropWhile isDigit
    let n := digitsValue digits
    let value :=
      if 2 ^ 32 ≤ n then 2 ^ 32 - 1 else if negative then (2 ^ 32 - n) % 2 ^ 32 else n
    (value, ⟨rest, rest.isEmpty, digits.isEmpty || decide (2 ^ 32 ≤ n)⟩)
  else (0, s)

/-- `header.find(":") + 2`; `npos + 2` is one. -/
def afterColon (header : Bytes) : Nat :=
  match find [COLON] header with
  | some i => i + 2
  | none => 1

/-- `s.substr(pos)`. -/
def substrFrom (s : Bytes) (pos : Nat) : Except Fault Bytes :=
  if s.length < pos then .error .outOfRange else .ok (s.drop pos)

/-- `header.substr(0, header.find(":"))`. -/
def headerToken (header : Bytes) : Bytes :=
  match find [COLON] header with
  | some i => header.take i
  | none => header

def redirectLocation (header : Bytes) : Except Fault Bytes :=
  if header = [] then .error .undefinedBehaviour
  else substrFrom header.dropLast (afterColon header.dropLast)

def findRedirect : List (Bytes × Bytes) → Except Fault (Option Bytes)
  | [] => .ok none
  | (header, _) :: rest =>
      if header = [CR] then .ok none
      else if find (lit "Location") header ≠ none then (redirectLocation header).map some
      else findRedirect rest

/-- The loop over the header lines of an answer; it returns the headers and what is left in the
buffer. -/
def addHeaders (leftover : Bytes) :
    List (Bytes × Bytes) → Response → Except Fault (Response × Bytes)
  | [], res => .ok (res, leftover)
  | (header, behind) :: rest, res =>
      if header = [CR] then .ok (res, behind)
      else if header = [] then .error .undefinedBehaviour
      else if headerToken header.dropLast ≠ lit "Transfer-Encoding" then
        match substrFrom header.dropLast (afterColon header.dropLast) with
        | .error e => .error e
        | .ok value => addHeaders leftover rest (res.addHeader (headerToken header.dropLast) value)
      else addHeaders leftover rest res

/-- The loop that reads to the end of the connection; each round takes the whole buffer for the
content. -/
def readRest : Bytes → Bytes → List Bytes → Bytes
  | _, content, [] => content
  | buffer, _, segment :: rest => readRest (buffer ++ segment) (buffer ++ segment) rest

/-- The two replacements of links by links below the location. -/
def rewriteLinks (prefixUri body : Bytes) : Bytes :=
  replaceAll (lit "src=\"/") (lit "src=\"" ++ prefixUri)
    (replaceAll (lit "href=\"/") (lit "href=\"" ++ prefixUri) body)

def throw400Error (w : World) : Response := makeDateServernameHeaders w empty.make400Error

/-- The answer of `send_request`, or the location that it calls `handle_redirect` with. -/
inductive Outcome
  | respond (res : Response)
  | redirect (location : Bytes)

def readStatus (buffer : Bytes) : Bytes × Nat × Istream UInt8 :=
  let version := (Istream.of buffer).word isSpace
  let code := unsigned version.2
  (version.1, code.1, (code.2.getline LF).2)

def readAnswer (w : World) (prefixUri : Bytes) (s : Istream UInt8) (segments : List Bytes) :
    Except Fault Outcome :=
  let read := readUntil (crlf ++ crlf) s.buffer segments
  let s := { s with buffer := read.1 }
  match addHeaders s.leftover (s.lines LF) (empty.setCode .OK) with
  | .error e => .error e
  | .ok (res, content) =>
      let body := rewriteLinks prefixUri (content ++ readRest [] [] read.2)
      .ok (.respond (makeDateServernameHeaders w
        ((res.addHeader (lit "Content-Length") (stdToString body.length)).addBody body)))

/-- `send_request` from the first read on, over the segments that the connection delivers before
its end. -/
def readResponse (w : World) (prefixUri : Bytes) (segments : List Bytes) : Except Fault Outcome :=
  let read := readUntil crlf [] segments
  let status := readStatus read.1
  if status.2.2.fail = true ∨ status.1.take 5 ≠ lit "HTTP/" then .ok (.respond (throw400Error w))
  else if status.2.1 = 302 ∨ status.2.1 = 301 then
    match findRedirect (status.2.2.lines LF) with
    | .error e => .error e
    | .ok none => .ok (.respond (throw400Error w))
    | .ok (some location) => .ok (.redirect location)
  else if status.2.1 = 200 then readAnswer w prefixUri status.2.2 read.2
  else if status.2.1 = 404 then
    .ok (.respond (makeDateServernameHeaders w (make404Error w empty)))
  else .ok (.respond (throw400Error w))

/-- What a host delivers for a request, segment by segment until it closes the connection;
nothing if the host is not found or refuses the connection. -/
abbrev Network := Bytes → Request → Option (List Bytes)

def redirectUrl (location : Bytes) : Url :=
  if find (lit "http://") location ≠ none ∨ find (lit "https://") location ≠ none then
    parseUrl location
  else parseUrl (lit "http://" ++ location)

/-- `handle_redirect`, given how a request is sent. -/
def handleRedirect (send : Request → Bytes → Option (Except Fault Response)) (w : World)
    (req : Request) (location : Bytes) (prevLoc : Url) : Option (Except Fault Response) :=
  let redirLoc := redirectUrl location
  if redirLoc.host = prevLoc.host ∧ redirLoc.path = prevLoc.path then
    some (.ok (throw400Error w))
  else send (getProxyRequest req redirLoc) redirLoc.host

/-- `send_request` with at most so many requests in a chain of redirections. -/
def sendRequest (net : Network) (h : ReverseProxyRequestHandler) (w : World) :
    Nat → Request → Bytes → Option (Except Fault Response)
  | 0, _, _ => none
  | n + 1, req, host =>
      match requestToString req with
      | .error e => some (.error e)
      | .ok _ =>
          match net host req with
          | none => some (.ok (throw400Error w))
          | some segments =>
              match readResponse w h.prefixUri segments with
              | .error e => some (.error e)
              | .ok (.respond res) => some (.ok res)
              | .ok (.redirect location) =>
                  handleRedirect (sendRequest net h w n) w req location ⟨host, req.uri, []⟩

section Send

variable {net : Network} {h : ReverseProxyRequestHandler} {w : World} {req : Request} {host : Bytes}

theorem sendRequest_eq (n : Nat) :
    sendRequest net h w (n + 1) req host =
      match requestToString req with
      | .error e => some (.error e)
      | .ok _ =>
          match net host req with
          | none => some (.ok (throw400Error w))
          | some segments =>
              match readResponse w h.prefixUri segments with
              | .error e => some (.error e)
              | .ok (.respond res) => some (.ok res)
              | .ok (.redirect location) =>
                  handleRedirect (sendRequest net h w n) w req location ⟨host, req.uri, []⟩ :=
  rfl

theorem exists_requestToString (valid : req.method ≠ .INVALID) :
    ∃ text, requestToString req = .ok text := by
  obtain ⟨name, hname⟩ := exists_methodName valid
  exact ⟨_, by simp only [requestToString, hname]; rfl⟩

theorem sendRequest_unreached (valid : req.method ≠ .INVALID) (unknown : net host req = none)
    (n : Nat) : sendRequest net h w (n + 1) req host = some (.ok (throw400Error w)) := by
  obtain ⟨text, written⟩ := exists_requestToString valid
  rw [sendRequest_eq, written, unknown]

theorem sendRequest_succ {segments : List Bytes} (valid : req.method ≠ .INVALID)
    (answered : net host req = some segments) (n : Nat) :
    sendRequest net h w (n + 1) req host =
      match readResponse w h.prefixUri segments with
      | .error e => some (.error e)
      | .ok (.respond res) => some (.ok res)
      | .ok (.redirect location) =>
          handleRedirect (sendRequest net h w n) w req location ⟨host, req.uri, []⟩ := by
  obtain ⟨text, written⟩ := exists_requestToString valid
  rw [sendRequest_eq, written, answered]

end Send

/-- `handle_request`: what follows the location prefix, without a final slash, is asked of the
configured host. -/
def handleRequest (net : Network) (h : ReverseProxyRequestHandler) (w : World) (n : Nat)
    (req : Request) : Option (Except Fault Response) :=
  if h.host = [] ∨ h.path = [] then some (.ok (throw400Error w))
  else
    match ensureSlash req.uri with
    | .error e => some (.error e)
    | .ok uri =>
        match find h.prefixUri uri with
        | none => some (.ok (make404Error w empty))
        | some index =>
            let rest := uri.drop (index + h.prefixUri.length - 1)
            let newUri := if rest ≠ lit "/" then rest.dropLast else rest
            sendRequest net h w n (getProxyRequest req ⟨h.host, newUri, []⟩) h.host

/-- A complete response of an upstream server.  A header is kept as its name and what follows
the colon. -/
structure HttpReply where
  version : Bytes
  code : Bytes
  reason : Bytes
  headers : List (Bytes × Bytes)
  body : Bytes
  version_http : lit "HTTP/" <+: version
  version_plain : ∀ c ∈ version, isSpace c = false
  code_digits : code.length = 3 ∧ ∀ c ∈ code, isDigit c = true
  reason_plain : ∀ c ∈ reason, c ≠ CR ∧ c ≠ LF
  headers_named : ∀ h ∈ headers, h.1 ≠ [] ∧ ∀ c ∈ h.1, c ≠ COLON ∧ c ≠ CR ∧ c ≠ LF
  headers_plain : ∀ h ∈ headers, ∀ c ∈ h.2, c ≠ CR ∧ c ≠ LF

section StatusLines

theorem http11_version : lit "HTTP/" <+: lit "HTTP/1.1" := by decide

theorem http11_plain : ∀ c ∈ lit "HTTP/1.1", isSpace c = false := forall_mem_of_all (by decide)

theorem code200_digits : (lit "200").length = 3 ∧ ∀ c ∈ lit "200", isDigit c = true :=
  ⟨by decide, forall_mem_of_all (by decide)⟩

theorem ok_plain : ∀ c ∈ lit "OK", c ≠ CR ∧ c ≠ LF := forall_mem_of_all (by decide)

theorem code302_digits : (lit "302").length = 3 ∧ ∀ c ∈ lit "302", isDigit c = true :=
  ⟨by decide, forall_mem_of_all (by decide)⟩

theorem found_plain : ∀ c ∈ lit "Found", c ≠ CR ∧ c ≠ LF := forall_mem_of_all (by decide)

theorem location_named :
    lit "Location" ≠ [] ∧ ∀ c ∈ lit "Location", c ≠ COLON ∧ c ≠ CR ∧ c ≠ LF :=
  ⟨by decide, forall_mem_of_all (by decide)⟩

end StatusLines

namespace HttpReply

def status (r : HttpReply) : Nat := digitsValue r.code

def statusLine (r : HttpReply) : Bytes := r.version ++ SP :: (r.code ++ SP :: r.reason)

def headerLine (h : Bytes × Bytes) : Bytes := h.1 ++ COLON :: h.2

def tail (r : HttpReply) : Bytes :=
  r.headers.flatMap (fun h => headerLine h ++ crlf) ++ (crlf ++ r.body)

def text (r : HttpReply) : Bytes := r.statusLine ++ (crlf ++ r.tail)

private theorem version_take (r : HttpReply) : r.version.take 5 = lit "HTTP/" := by
  obtain ⟨rest, hrest⟩ := r.version_http
  rw [← hrest, List.take_left' (by decide)]

private theorem statusLine_plain (r : HttpReply) : CR ∉ r.statusLine ∧ LF ∉ r.statusLine := by
  have version : ∀ c, isSpace c = true → c ∉ r.version := by
    intro c hc hmem
    rw [r.version_plain c hmem] at hc
    cases hc
  have code : ∀ c, isDigit c = false → c ∉ r.code := by
    intro c hc hmem
    rw [r.code_digits.2 c hmem] at hc
    cases hc
  constructor
  · intro h
    simp only [statusLine, List.mem_append, List.mem_cons] at h
    rcases h with h | h | h | h | h
    · exact version CR rfl h
    · cases h
    · exact code CR rfl h
    · cases h
    · exact (r.reason_plain CR h).1 rfl
  · intro h
    simp only [statusLine, List.mem_append, List.mem_cons] at h
    rcases h with h | h | h | h | h
    · exact version LF rfl h
    · cases h
    · exact code LF rfl h
    · cases h
    · exact (r.reason_plain LF h).2 rfl

private theorem headerLine_plain (r : HttpReply) {h : Bytes × Bytes} (hh : h ∈ r.headers) :
    CR ∉ headerLine h ∧ LF ∉ headerLine h := by
  have name := (r.headers_named h hh).2
  have rest := r.headers_plain h hh
  constructor
  · intro hmem
    simp only [headerLine, List.mem_append, List.mem_cons] at hmem
    rcases hmem with hmem | hmem | hmem
    · exact (name CR hmem).2.1 rfl
    · cases hmem
    · exact (rest CR hmem).1 rfl
  · intro hmem
    simp only [headerLine, List.mem_append, List.mem_cons] at hmem
    rcases hmem with hmem | hmem | hmem
    · exact (name LF hmem).2.2 rfl
    · cases hmem
    · exact (rest LF hmem).2 rfl

private theorem status_lt (r : HttpReply) : r.status < 1000 := by
  obtain ⟨hlen, hdigits⟩ := r.code_digits
  rw [status]
  match hcode : r.code, hlen with
  | [a, b, c], _ =>
      have small : ∀ d ∈ [a, b, c], d.toNat - 48 ≤ 9 := by
        intro d hd
        have digit := hdigits d (by rw [hcode]; exact hd)
        simp only [isDigit, Bool.and_eq_true, decide_eq_true_eq] at digit
        omega
      have ha := small a (by simp)
      have hb := small b (by simp)
      have hc := small c (by simp)
      simp only [digitsValue, List.foldl_cons, List.foldl_nil]
      omega

end HttpReply

section Status

variable (r : HttpReply)

private theorem unsigned_of {code rest : Bytes} (hcode : ∀ c ∈ code, isDigit c = true)
    (hne : code ≠ []) (hvalue : digitsValue code < 2 ^ 32) :
    unsigned (.of (SP :: (code ++ SP :: rest))) = (digitsValue code, .of (SP :: rest)) := by
  obtain ⟨d, code', rfl⟩ := List.exists_cons_of_ne_nil hne
  have digit : isDigit d = true := hcode d List.mem_cons_self
  have start : (Istream.of (SP :: (d :: code' ++ SP :: rest))).sentry isSpace =
      .of (d :: code' ++ SP :: rest) :=
    @sentry_of UInt8 isSpace [SP] (code' ++ SP :: rest) d (by simp [isSpace])
      (isSpace_of_isDigit digit)
  have unsignedText : splitSign (d :: code' ++ SP :: rest) = (false, d :: code' ++ SP :: rest) := by
    rw [List.cons_append]
    exact splitSign_of_isDigit digit _
  have stop : isDigit SP = false := by decide
  simp only [unsigned, start, Istream.of_good, Istream.of_buffer, if_true, unsignedText,
    takeWhile_append_stop hcode stop, dropWhile_append_stop hcode stop,
    if_neg (Nat.not_le.mpr hvalue), decide_eq_false (Nat.not_le.mpr hvalue)]
  rfl

private theorem readStatus_reply (t : Bytes) :
    readStatus (r.statusLine ++ (crlf ++ t)) = (r.version, r.status, .of t) := by
  have version : (Istream.of (r.statusLine ++ (crlf ++ t))).word isSpace =
      (r.version, .of (SP :: (r.code ++ SP :: (r.reason ++ (crlf ++ t))))) := by
    have nonempty : r.version ≠ [] := by
      obtain ⟨rest, hrest⟩ := r.version_http
      rw [← hrest]
      exact List.append_ne_nil_of_left_ne_nil (by decide) rest
    have read : (Istream.of (r.version ++ SP :: (r.code ++ SP :: (r.reason ++ (crlf ++ t))))).word
        isSpace = (r.version, .of (SP :: (r.code ++ SP :: (r.reason ++ (crlf ++ t))))) :=
      word_of r.version_plain nonempty rfl
    simpa [HttpReply.statusLine] using read
  have code : unsigned (.of (SP :: (r.code ++ SP :: (r.reason ++ (crlf ++ t))))) =
      (r.status, .of (SP :: (r.reason ++ (crlf ++ t)))) := by
    refine unsigned_of r.code_digits.2 ?_ (lt_trans r.status_lt (by decide))
    intro h
    have := r.code_digits.1
    rw [h] at this
    cases this
  have line : LF ∉ SP :: (r.reason ++ [CR]) := by
    simp only [List.mem_cons, List.mem_append, not_or]
    exact ⟨by decide, fun h => (r.reason_plain LF h).2 rfl, by decide, by simp⟩
  have message : ((Istream.of (SP :: (r.reason ++ (crlf ++ t)))).getline LF).2 = .of t := by
    have read : (Istream.of (SP :: (r.reason ++ [CR]) ++ LF :: t)).getline LF =
        (SP :: (r.reason ++ [CR]), .of t) := getline_of line
    rw [show SP :: (r.reason ++ (crlf ++ t)) = SP :: (r.reason ++ [CR]) ++ LF :: t by simp, read]
  simp only [readStatus, version, code, message]

end Status

section Segments

private theorem split_of_crlf {p q a b : Bytes} (h : p ++ q = a ++ (crlf ++ b)) (hcr : CR ∉ a)
    (hlf : LF ∉ a) (found : crlf <:+: p ∨ q = []) : ∃ t, p = a ++ (crlf ++ t) ∧ t ++ q = b := by
  rcases found with found | rfl
  · have cr : CR ∈ p := found.subset (by simp)
    have lf : LF ∈ p := found.subset (by simp)
    obtain ⟨x, rfl, -⟩ | ⟨x, rfl, hx⟩ := List.append_eq_append_iff.mp h
    · exact absurd (List.mem_append_left x cr) hcr
    · match x, hx with
      | [], _ =>
          rw [List.append_nil] at cr
          exact absurd cr hcr
      | [c], hx =>
          simp only [List.cons_append, List.cons.injEq] at hx
          rw [← hx.1] at lf
          rcases List.mem_append.mp lf with lf | lf
          · exact absurd lf hlf
          · exact absurd lf (by decide)
      | c :: d :: t, hx =>
          simp only [List.cons_append, List.cons.injEq, List.nil_append] at hx
          obtain ⟨rfl, rfl, rfl⟩ := hx
          exact ⟨t, rfl, rfl⟩
  · exact ⟨b, by simpa using h, by simp⟩

private theorem first_read (r : HttpReply) {segments : List Bytes}
    (delivered : segments.flatten = r.text) :
    ∃ t, (readUntil crlf [] segments).1 = r.statusLine ++ (crlf ++ t) ∧
      t ++ (readUntil crlf [] segments).2.flatten = r.tail := by
  obtain ⟨bytes, found⟩ := @readUntil_spec _ _ crlf [] segments
  rw [List.nil_append, delivered] at bytes
  refine split_of_crlf bytes r.statusLine_plain.1 r.statusLine_plain.2 (found.imp_right ?_)
  intro h
  rw [h, List.flatten_nil]

def headerBlock (headers : List (Bytes × Bytes)) : Bytes :=
  headers.flatMap (fun h => HttpReply.headerLine h ++ crlf)

theorem headerBlock_cons (h : Bytes × Bytes) (headers : List (Bytes × Bytes)) (rest : Bytes) :
    headerBlock (h :: headers) ++ rest =
      HttpReply.headerLine h ++ (crlf ++ (headerBlock headers ++ rest)) := by
  simp [headerBlock]

/-- The name is not empty and has no colon, and the line has no line ends. -/
structure PlainHeader (h : Bytes × Bytes) : Prop where
  named : h.1 ≠ []
  colon : COLON ∉ h.1
  cr : CR ∉ HttpReply.headerLine h
  lf : LF ∉ HttpReply.headerLine h

theorem HttpReply.plainHeader (r : HttpReply) {h : Bytes × Bytes} (hh : h ∈ r.headers) :
    PlainHeader h := by
  obtain ⟨named, letters⟩ := r.headers_named h hh
  obtain ⟨cr, lf⟩ := r.headerLine_plain hh
  exact ⟨named, fun hc => (letters COLON hc).1 rfl, cr, lf⟩

private theorem not_infix_headerBlock {headers : List (Bytes × Bytes)}
    (plain : ∀ h ∈ headers, PlainHeader h) :
    ¬ crlf ++ crlf <:+: headerBlock headers ++ [CR] := by
  induction headers with
  | nil =>
      intro h
      have := h.length_le
      simp [headerBlock] at this
  | cons h headers ih =>
      have hcr := (plain h (by simp)).cr
      have rest := ih (fun k hk => plain k (by simp [hk]))
      have lf : CR ≠ LF := by decide
      rw [headerBlock_cons, show crlf ++ crlf = CR :: LF :: crlf from rfl,
        infix_append_of_notMem hcr, List.cons_append, List.infix_cons_iff, List.singleton_append,
        infix_cons_of_ne lf]
      rintro (⟨x, hx⟩ | inside)
      · -- the byte behind a header line begins a name, or is the last one
        simp only [List.cons_append, List.cons.injEq, true_and] at hx
        cases headers with
        | nil =>
            simp [headerBlock] at hx
        | cons k headers =>
            have next := plain k (by simp)
            obtain ⟨c, name, hc⟩ := List.exists_cons_of_ne_nil next.named
            simp only [headerBlock, List.flatMap_cons, HttpReply.headerLine, hc, List.cons_append,
              List.cons.injEq] at hx
            refine next.cr ?_
            simp [HttpReply.headerLine, hc, ← hx.1]
      · exact rest inside

private theorem second_read {headers : List (Bytes × Bytes)} (plain : ∀ h ∈ headers, PlainHeader h)
    {body t : Bytes} {segments : List Bytes}
    (left : t ++ segments.flatten = headerBlock headers ++ (crlf ++ body)) :
    ∃ content, (readUntil (crlf ++ crlf) t segments).1 = headerBlock headers ++ (crlf ++ content) ∧
      content ++ (readUntil (crlf ++ crlf) t segments).2.flatten = body := by
  obtain ⟨bytes, found⟩ := @readUntil_spec _ _ (crlf ++ crlf) t segments
  rw [left] at bytes
  generalize (readUntil (crlf ++ crlf) t segments).1 = p at bytes found
  generalize (readUntil (crlf ++ crlf) t segments).2 = rest at bytes found
  rcases found with found | rfl
  · rw [← List.append_assoc] at bytes
    obtain ⟨x, hx, -⟩ | ⟨x, rfl, hx⟩ := List.append_eq_append_iff.mp bytes
    · -- less than the blank line would hold the delimiter too early, or is all of it
      cases x using List.reverseRecOn with
      | nil => exact ⟨[], by simpa using hx.symm, by simp_all⟩
      | append_singleton x c _ =>
          have early : p <+: headerBlock headers ++ [CR] := by
            rw [show headerBlock headers ++ crlf = headerBlock headers ++ [CR] ++ [LF] by simp,
              ← List.append_assoc] at hx
            exact ⟨x, (List.append_inj' hx rfl).1.symm⟩
          exact absurd (found.trans early.isInfix) (not_infix_headerBlock plain)
    · exact ⟨x, by simp, hx.symm⟩
  · exact ⟨body, by simpa using bytes, by simp⟩

end Segments

section Headers

variable {h : Bytes × Bytes}

private theorem linesFrom_header (plain : PlainHeader h) (rest : Bytes) :
    Istream.linesFrom LF [] (HttpReply.headerLine h ++ (crlf ++ rest)) =
      (HttpReply.headerLine h ++ [CR], rest) :: Istream.linesFrom LF [] rest := by
  have line : LF ∉ HttpReply.headerLine h ++ [CR] := by
    simp only [List.mem_append, not_or]
    exact ⟨plain.lf, by decide⟩
  have read := @linesFrom_line _ _ LF (HttpReply.headerLine h ++ [CR]) rest line
  rwa [List.append_assoc] at read

theorem headerLine_ne (h : Bytes × Bytes) :
    HttpReply.headerLine h ++ [CR] ≠ [CR] ∧ HttpReply.headerLine h ++ [CR] ≠ [] := by
  refine ⟨fun same => ?_, by simp⟩
  have := congrArg List.length same
  simp [HttpReply.headerLine] at this
  omega

theorem headerToken_headerLine (colon : COLON ∉ h.1) :
    headerToken (HttpReply.headerLine h) = h.1 := by
  rw [headerToken, HttpReply.headerLine, find_singleton colon]
  exact List.take_left

theorem substrFrom_headerLine (colon : COLON ∉ h.1) :
    substrFrom (HttpReply.headerLine h) (afterColon (HttpReply.headerLine h)) =
      if h.2 = [] then .error .outOfRange else .ok (h.2.drop 1) := by
  have position : afterColon (HttpReply.headerLine h) = h.1.length + 2 := by
    rw [afterColon, HttpReply.headerLine, find_singleton colon]
  rw [substrFrom, position, HttpReply.headerLine, List.length_append, List.length_cons]
  by_cases hrest : h.2 = []
  · rw [if_pos hrest, if_pos (by simp [hrest])]
  · have := List.length_pos_iff.mpr hrest
    rw [if_neg hrest, if_neg (by omega), ← List.drop_drop, List.drop_left' rfl]
    rfl

/-- The header that the loop of `send_request` adds. -/
def addedHeader (res : Response) (h : Bytes × Bytes) : Response :=
  if h.1 ≠ lit "Transfer-Encoding" then res.addHeader h.1 (h.2.drop 1) else res

/-- The value of the header is not needed or has a byte to skip. -/
def Cuttable (h : Bytes × Bytes) : Prop := h.1 ≠ lit "Transfer-Encoding" → h.2 ≠ []

private theorem addHeaders_cons (plain : PlainHeader h) (leftover rest : Bytes) (res : Response) :
    addHeaders leftover (Istream.linesFrom LF [] (HttpReply.headerLine h ++ (crlf ++ rest))) res =
      if h.1 ≠ lit "Transfer-Encoding" ∧ h.2 = [] then .error .outOfRange
      else addHeaders leftover (Istream.linesFrom LF [] rest) (addedHeader res h) := by
  obtain ⟨hblank, hempty⟩ := headerLine_ne h
  rw [linesFrom_header plain, addHeaders, if_neg hblank, if_neg hempty, List.dropLast_concat,
    headerToken_headerLine plain.colon, substrFrom_headerLine plain.colon, addedHeader]
  by_cases hname : h.1 = lit "Transfer-Encoding"
  · simp [hname]
  · by_cases hvalue : h.2 = []
    · simp [hname, hvalue]
    · simp [hname, hvalue]

private theorem addHeaders_block {headers : List (Bytes × Bytes)}
    (plain : ∀ h ∈ headers, PlainHeader h) (cuttable : ∀ h ∈ headers, Cuttable h)
    (leftover content : Bytes) (res : Response) :
    addHeaders leftover
        (Istream.linesFrom LF [] (headerBlock headers ++ (crlf ++ content))) res =
      .ok (headers.foldl addedHeader res, content) := by
  induction headers generalizing res with
  | nil => rfl
  | cons h headers ih =>
      have kept : ¬ (h.1 ≠ lit "Transfer-Encoding" ∧ h.2 = []) :=
        fun hcut => cuttable h (by simp) hcut.1 hcut.2
      rw [headerBlock_cons, addHeaders_cons (plain h (by simp)), if_neg kept,
        ih (fun k hk => plain k (by simp [hk])) (fun k hk => cuttable k (by simp [hk]))]
      rfl

/-- The header line contains the word that the redirection looks for. -/
def NamesLocation (h : Bytes × Bytes) : Prop := lit "Location" <:+: HttpReply.headerLine h

instance (h : Bytes × Bytes) : Decidable (NamesLocation h) :=
  inferInstanceAs (Decidable (_ <:+: _))

theorem find_location_iff (line : Bytes) :
    find (lit "Location") (line ++ [CR]) ≠ none ↔ lit "Location" <:+: line := by
  have cr : CR ∉ lit "Location" := by decide
  rw [ne_eq, find_eq_none_iff, not_not, infix_append_cons cr]
  constructor
  · rintro (inside | behind)
    · exact inside
    · exact absurd behind (by decide)
  · exact .inl

theorem findRedirect_cons (plain : PlainHeader h) (rest : Bytes) :
    findRedirect (Istream.linesFrom LF [] (HttpReply.headerLine h ++ (crlf ++ rest))) =
      if NamesLocation h then
        if h.2 = [] then .error .outOfRange else .ok (some (h.2.drop 1))
      else findRedirect (Istream.linesFrom LF [] rest) := by
  obtain ⟨hblank, hempty⟩ := headerLine_ne h
  rw [linesFrom_header plain, findRedirect, if_neg hblank]
  by_cases names : NamesLocation h
  · rw [if_pos ((find_location_iff _).mpr names), if_pos names, redirectLocation, if_neg hempty,
      List.dropLast_concat, substrFrom_headerLine plain.colon]
    split_ifs <;> rfl
  · rw [if_neg (fun found => names ((find_location_iff _).mp found)), if_neg names]

private theorem findRedirect_block {headers : List (Bytes × Bytes)}
    (plain : ∀ h ∈ headers, PlainHeader h) (content : Bytes) :
    findRedirect (Istream.linesFrom LF [] (headerBlock headers ++ (crlf ++ content))) =
      match headers.find? (fun h => NamesLocation h) with
      | none => .ok none
      | some h => if h.2 = [] then .error .outOfRange else .ok (some (h.2.drop 1)) := by
  induction headers with
  | nil => rfl
  | cons h headers ih =>
      rw [headerBlock_cons, findRedirect_cons (plain h (by simp)),
        ih (fun k hk => plain k (by simp [hk]))]
      by_cases names : NamesLocation h
      · simp [names]
      · simp [names]

private theorem addHeaders_block_error {headers : List (Bytes × Bytes)}
    (plain : ∀ h ∈ headers, PlainHeader h) {k : Bytes × Bytes} (hk : k ∈ headers)
    (bare : ¬ Cuttable k) (leftover content : Bytes) (res : Response) :
    addHeaders leftover
        (Istream.linesFrom LF [] (headerBlock headers ++ (crlf ++ content))) res =
      .error .outOfRange := by
  induction headers generalizing res with
  | nil => cases hk
  | cons h headers ih =>
      rw [headerBlock_cons, addHeaders_cons (plain h (by simp))]
      rcases List.mem_cons.mp hk with rfl | hk
      · rw [if_pos (by simpa [Cuttable] using bare)]
      · rw [ih (fun j hj => plain j (by simp [hj])) hk, ite_self]

end Headers

private theorem readRest_eq (buffer : Bytes) (segments : List Bytes) :
    readRest buffer buffer segments = buffer ++ segments.flatten := by
  induction segments generalizing buffer with
  | nil => simp [readRest]
  | cons segment rest ih => rw [readRest, ih, List.flatten_cons, List.append_assoc]

section Replies

variable {w : World} {prefixUri : Bytes} {segments : List Bytes}

def answer (w : World) (prefixUri : Bytes) (r : HttpReply) : Response :=
  let body := rewriteLinks prefixUri r.body
  makeDateServernameHeaders w
    (((r.headers.foldl addedHeader (empty.setCode .OK)).addHeader
      (lit "Content-Length") (stdToString body.length)).addBody body)

theorem readResponse_eq (r : HttpReply) (delivered : segments.flatten = r.text) :
    ∃ t, t ++ (readUntil crlf [] segments).2.flatten = r.tail ∧
      (readUntil crlf [] segments).1 = r.statusLine ++ (crlf ++ t) ∧
      readResponse w prefixUri segments =
        if r.status = 302 ∨ r.status = 301 then
          match findRedirect (Istream.linesFrom LF [] t) with
          | .error e => .error e
          | .ok none => .ok (.respond (throw400Error w))
          | .ok (some location) => .ok (.redirect location)
        else if r.status = 200 then
          readAnswer w prefixUri (.of t) (readUntil crlf [] segments).2
        else if r.status = 404 then
          .ok (.respond (makeDateServernameHeaders w (make404Error w empty)))
        else .ok (.respond (throw400Error w)) := by
  obtain ⟨t, buffered, left⟩ := first_read r delivered
  refine ⟨t, left, buffered, ?_⟩
  have proceeds : ¬ ((Istream.of t).fail = true ∨ r.version.take 5 ≠ lit "HTTP/") := by
    rintro (fails | other)
    · cases fails
    · exact other r.version_take
  simp only [readResponse, buffered, readStatus_reply, if_neg proceeds]
  rfl

private theorem readAnswer_eq {t buffer : Bytes} {rest : List Bytes}
    (read : readUntil (crlf ++ crlf) t segments = (buffer, rest)) :
    readAnswer w prefixUri (.of t) segments =
      match addHeaders [] (Istream.linesFrom LF [] buffer) (empty.setCode .OK) with
      | .error e => .error e
      | .ok (res, content) =>
          .ok (.respond (makeDateServernameHeaders w
            ((res.addHeader (lit "Content-Length") (stdToString
              (rewriteLinks prefixUri (content ++ rest.flatten)).length)).addBody
              (rewriteLinks prefixUri (content ++ rest.flatten))))) := by
  have body : readRest [] [] rest = rest.flatten := readRest_eq [] rest
  simp only [readAnswer, Istream.of_buffer, read, body]
  rfl

theorem readResponse_ok (r : HttpReply) (hstatus : r.status = 200)
    (cuttable : ∀ h ∈ r.headers, Cuttable h) (delivered : segments.flatten = r.text) :
    readResponse w prefixUri segments = .ok (.respond (answer w prefixUri r)) := by
  obtain ⟨t, left, -, hread⟩ := @readResponse_eq w prefixUri segments r delivered
  have plain : ∀ h ∈ r.headers, PlainHeader h := fun h hh => r.plainHeader hh
  obtain ⟨content, buffered, rest⟩ := second_read plain left
  rw [hread, if_neg (by simp [hstatus]), if_pos hstatus, readAnswer_eq rfl, buffered,
    addHeaders_block plain cuttable]
  simp only [rest, answer]

def HttpReply.redirectHeader (r : HttpReply) : Option (Bytes × Bytes) :=
  if r.status = 302 ∨ r.status = 301 then r.headers.find? (fun h => NamesLocation h) else none

/-- The location that a reply redirects to. -/
def HttpReply.location (r : HttpReply) : Option Bytes := r.redirectHeader.map (fun h => h.2.drop 1)

/-- No header whose value is needed ends at its colon. -/
def HttpReply.Readable (r : HttpReply) : Prop :=
  (∀ h, r.redirectHeader = some h → h.2 ≠ []) ∧
    (r.status = 200 → ∀ h ∈ r.headers, Cuttable h)

private theorem readResponse_whole (w : World) (prefixUri : Bytes) (r : HttpReply) :
    readResponse w prefixUri [r.text] =
      if r.status = 302 ∨ r.status = 301 then
        match r.headers.find? (fun h => NamesLocation h) with
        | none => .ok (.respond (throw400Error w))
        | some h => if h.2 = [] then .error .outOfRange else .ok (.redirect (h.2.drop 1))
      else if r.status = 200 then readAnswer w prefixUri (.of r.tail) []
      else if r.status = 404 then
        .ok (.respond (makeDateServernameHeaders w (make404Error w empty)))
      else .ok (.respond (throw400Error w)) := by
  obtain ⟨t, left, -, hread⟩ := @readResponse_eq w prefixUri [r.text] r (by simp)
  have absent : ¬ crlf <:+: ([] : Bytes) := by decide
  have rest : (readUntil crlf [] [r.text]).2 = [] := by
    rw [readUntil, if_neg absent]
    rfl
  rw [rest, List.flatten_nil, List.append_nil] at left
  have found := findRedirect_block (fun h hh => r.plainHeader hh) r.body
  rw [hread, rest, left, show r.tail = headerBlock r.headers ++ (crlf ++ r.body) from rfl, found]
  cases r.headers.find? (fun h => NamesLocation h) with
  | none => rfl
  | some h =>
      by_cases bare : h.2 = []
      · simp only [if_pos bare]
      · simp only [if_neg bare]

theorem readResponse_of_readable (w : World) (prefixUri : Bytes) {r : HttpReply}
    (readable : r.Readable) :
    (∃ location, r.location = some location ∧
        readResponse w prefixUri [r.text] = .ok (.redirect location)) ∨
      (r.location = none ∧ ∃ res, readResponse w prefixUri [r.text] = .ok (.respond res)) := by
  obtain ⟨valued, cuttable⟩ := readable
  rw [HttpReply.location]
  by_cases hredirect : r.status = 302 ∨ r.status = 301
  · rw [readResponse_whole, if_pos hredirect]
    rw [HttpReply.redirectHeader, if_pos hredirect] at valued ⊢
    cases hfound : r.headers.find? (fun h => NamesLocation h) with
    | none => exact .inr ⟨rfl, _, rfl⟩
    | some h => exact .inl ⟨h.2.drop 1, rfl, if_neg (valued h hfound)⟩
  · rw [HttpReply.redirectHeader, if_neg hredirect]
    refine .inr ⟨rfl, ?_⟩
    by_cases hok : r.status = 200
    · exact ⟨_, readResponse_ok r hok (cuttable hok) (by simp)⟩
    · rw [readResponse_whole, if_neg hredirect, if_neg hok]
      split_ifs
      · exact ⟨_, rfl⟩
      · exact ⟨_, rfl⟩

theorem readResponse_of_not_readable (w : World) (prefixUri : Bytes) {r : HttpReply}
    (unreadable : ¬ r.Readable) : readResponse w prefixUri [r.text] = .error .outOfRange := by
  rw [readResponse_whole]
  by_cases hredirect : r.status = 302 ∨ r.status = 301
  · have hcode : r.status ≠ 200 := by omega
    rw [if_pos hredirect]
    simp only [HttpReply.Readable, HttpReply.redirectHeader, if_pos hredirect, hcode,
      false_imp_iff, and_true, not_forall, not_not] at unreadable
    obtain ⟨h, hfound, bare⟩ := unreadable
    rw [hfound]
    exact if_pos bare
  · simp only [HttpReply.Readable, HttpReply.redirectHeader, if_neg hredirect, not_and,
      not_forall] at unreadable
    obtain ⟨hok, h, hh, bare⟩ := unreadable (by simp)
    have failed := addHeaders_block_error (fun k hk => r.plainHeader hk) hh bare [] r.body
      (empty.setCode .OK)
    have buffered : readUntil (crlf ++ crlf) r.tail [] =
        (headerBlock r.headers ++ (crlf ++ r.body), []) := rfl
    rw [if_neg hredirect, if_pos hok, readAnswer_eq buffered, failed]

end Replies

end Wnza.Handler.ProxyReading
