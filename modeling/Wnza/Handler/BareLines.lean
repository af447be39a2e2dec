/- GID: Wnza/Handler/BareLines
   generality: I
   source: src/reverse_proxy_request_handler.cc (send_request, handle_redirect)
   digest: Which bytes of upstream servers the proxy reads to a response, and which make it fail. -/

import Wnza.Handler.ProxyReading

set_option autoImplicit false
set_option relaxedAutoImplicit false

namespace Wnza.Handler.BareLines

open Wnza.Foundation.InputStream
open Wnza.Foundation.Substring
open Wnza.Http.Text
open Wnza.Http.Parser
open Wnza.Handler.Basic
open Wnza.Handler.Basic.Response
open Wnza.Handler.ProxyReading
open Wnza.Handler.ProxyTarget
open Wnza.Handler.ReverseProxy

/-- The line has less than two bytes, or ends one byte behind its first colon. -/
def Bare (line : Bytes) : Prop :=
  line.length < 2 ∨ ∃ name c, COLON ∉ name ∧ line = name ++ [COLON, c]

/-- The line is the name of the transfer encoding, a colon and one byte more. -/
def IsSkipped (line : Bytes) : Prop := ∃ c, line = lit "Transfer-Encoding:" ++ [c]

def headerLines (s : Istream UInt8) : List Bytes :=
  ((s.lines LF).map Prod.fst).takeWhile (· ≠ [CR])

def statusOf (segments : List Bytes) : Bytes × Nat × Istream UInt8 :=
  readStatus (readUntil crlf [] segments).1

def wholeHead (segments : List Bytes) : Istream UInt8 :=
  { (statusOf segments).2.2 with
    buffer := (readUntil (crlf ++ crlf) (statusOf segments).2.2.buffer
      (readUntil crlf [] segments).2).1 }

/-- A status line is read, and it has this code. -/
def HasStatus (segments : List Bytes) (code : Nat) : Prop :=
  (statusOf segments).2.2.fail = false ∧ (statusOf segments).1.take 5 = lit "HTTP/" ∧
    (statusOf segments).2.1 = code

/-- In a redirection, the first line with a location that has been buffered is not bare; in an
answer, no line of the head is, except for one that names the transfer encoding. -/
structure Sound (segments : List Bytes) : Prop where
  redirect : HasStatus segments 302 ∨ HasStatus segments 301 → ∀ line,
    (headerLines (statusOf segments).2.2).find? (fun line => lit "Location" <:+: line) = some line →
      ¬ Bare line
  answer : HasStatus segments 200 → ∀ line ∈ headerLines (wholeHead segments), Bare line →
    IsSkipped line

/-- What the hosts of a chain of redirections deliver, from this request on. -/
inductive Received (net : Network) (h : ReverseProxyRequestHandler) (w : World) :
    Request → Bytes → List Bytes → Prop
  | first {req : Request} {host : Bytes} {segments : List Bytes}
      (answered : net host req = some segments) : Received net h w req host segments
  | later {req : Request} {host location : Bytes} {segments more : List Bytes}
      (answered : net host req = some segments)
      (redirected : readResponse w h.prefixUri segments = .ok (.redirect location))
      (moved : ¬ ((redirectUrl location).host = host ∧ (redirectUrl location).path = req.uri))
      (rest : Received net h w (getProxyRequest req (redirectUrl location))
        (redirectUrl location).host more) : Received net h w req host more

section Lines

private theorem takeWhile_colon {name : Bytes} (hname : COLON ∉ name) (rest : Bytes) :
    (name ++ COLON :: rest).takeWhile (· ≠ COLON) = name :=
  takeWhile_append_stop (fun _ hd => decide_eq_true (ne_of_mem_of_not_mem hd hname)) (by simp)

private theorem bare_colon_iff {name rest : Bytes} {c : UInt8} (hname : COLON ∉ name) :
    Bare (name ++ COLON :: rest ++ [c]) ↔ rest = [] := by
  constructor
  · rintro (short | ⟨name', c', hname', split⟩)
    · simp only [List.length_append, List.length_cons, List.length_nil] at short
      omega
    · rw [List.append_assoc, List.cons_append] at split
      have same := congrArg (List.takeWhile (· ≠ COLON)) split
      rw [takeWhile_colon hname, takeWhile_colon hname'] at same
      subst same
      have tail := (List.cons.inj (List.append_cancel_left split)).2
      have length := congrArg List.length tail
      rw [List.length_append, List.length_singleton, List.length_singleton] at length
      exact List.length_eq_zero_iff.mp (by omega)
  · rintro rfl
    exact .inr ⟨name, c, hname, by simp⟩

private theorem bare_plain_iff {d : Bytes} {c : UInt8} (hd : COLON ∉ d) :
    Bare (d ++ [c]) ↔ d = [] := by
  constructor
  · rintro (short | ⟨name, c', -, split⟩)
    · rw [List.length_append, List.length_singleton] at short
      exact List.length_eq_zero_iff.mp (by omega)
    · have same : d ++ [c] = name ++ [COLON] ++ [c'] := by simpa using split
      rw [(List.append_inj' same rfl).1] at hd
      exact absurd (by simp) hd
  · rintro rfl
    exact .inl (by simp)

private theorem substrFrom_ok_iff {d : Bytes} (c : UInt8) :
    (∃ value, substrFrom d (afterColon d) = .ok value) ↔ ¬ Bare (d ++ [c]) := by
  by_cases hd : COLON ∈ d
  · obtain ⟨name, rest, rfl, hname⟩ := List.eq_append_cons_of_mem hd
    have cut := @substrFrom_headerLine (name, rest) hname
    rw [HttpReply.headerLine] at cut
    rw [cut, bare_colon_iff hname]
    by_cases hrest : rest = []
    · simp [hrest]
    · simp [hrest]
  · have none : afterColon d = 1 := by
      have absent : find [COLON] d = none := by
        rw [find_eq_none_iff, List.singleton_infix_iff]
        exact hd
      rw [afterColon, absent]
    rw [none, bare_plain_iff hd, substrFrom]
    by_cases hempty : d = []
    · simp [hempty]
    · have := List.length_pos_iff.mpr hempty
      rw [if_neg (by omega)]
      simp [hempty]

private theorem bare_nil : Bare [] := .inl (by simp)

private theorem redirectLocation_ok_iff {line : Bytes} :
    (∃ location, redirectLocation line = .ok location) ↔ ¬ Bare line := by
  cases line using List.reverseRecOn with
  | nil => simp [redirectLocation, bare_nil]
  | append_singleton d c _ =>
      rw [redirectLocation, if_neg (by simp), List.dropLast_concat]
      exact substrFrom_ok_iff c

private theorem headerToken_of_bare {d : Bytes} {c : UInt8} (bare : Bare (d ++ [c])) :
    headerToken d = lit "Transfer-Encoding" ↔ IsSkipped (d ++ [c]) := by
  have colon : lit "Transfer-Encoding:" = lit "Transfer-Encoding" ++ [COLON] := by decide
  by_cases hd : COLON ∈ d
  · obtain ⟨name, rest, rfl, hname⟩ := List.eq_append_cons_of_mem hd
    obtain rfl := (bare_colon_iff hname).mp bare
    have token := @headerToken_headerLine (name, []) hname
    rw [HttpReply.headerLine] at token
    rw [token]
    constructor
    · rintro rfl
      exact ⟨c, by rw [colon]⟩
    · rintro ⟨c', split⟩
      rw [colon] at split
      exact (List.append_inj' (List.append_inj' split rfl).1 rfl).1
  · obtain rfl := (bare_plain_iff hd).mp bare
    refine iff_of_false (by decide) ?_
    rintro ⟨c', split⟩
    have := congrArg List.length split
    simp [lit] at this

private theorem headerLine_ok_iff {d : Bytes} (c : UInt8) :
    (headerToken d ≠ lit "Transfer-Encoding" →
        ∃ value, substrFrom d (afterColon d) = .ok value) ↔
      (Bare (d ++ [c]) → IsSkipped (d ++ [c])) := by
  rw [substrFrom_ok_iff c]
  constructor
  · intro cuttable bare
    by_contra needed
    exact cuttable (fun h => needed ((headerToken_of_bare bare).mp h)) bare
  · intro skipped needed bare
    exact needed ((headerToken_of_bare bare).mpr (skipped bare))

private theorem addHeaders_ok_iff (leftover : Bytes) (lines : List (Bytes × Bytes))
    (res : Response) :
    (∃ out, addHeaders leftover lines res = .ok out) ↔
      ∀ line ∈ (lines.map Prod.fst).takeWhile (· ≠ [CR]), Bare line → IsSkipped line := by
  induction lines generalizing res with
  | nil => simp [addHeaders]
  | cons first lines ih =>
      obtain ⟨line, behind⟩ := first
      rw [List.map_cons, addHeaders]
      by_cases hend : line = [CR]
      · rw [if_pos hend, List.takeWhile_cons_of_neg (by simp [hend])]
        simp
      · rw [if_neg hend, List.takeWhile_cons_of_pos (by simpa using hend), List.forall_mem_cons]
        cases line using List.reverseRecOn with
        | nil =>
            refine iff_of_false (by simp) ?_
            rintro ⟨skipped, -⟩
            obtain ⟨c, split⟩ := skipped bare_nil
            cases split
        | append_singleton d c _ =>
            rw [if_neg (by simp), List.dropLast_concat, ← headerLine_ok_iff c]
            by_cases hname : headerToken d = lit "Transfer-Encoding"
            · rw [if_neg (not_not.mpr hname), ih]
              simp [hname]
            · rw [if_pos hname]
              cases hcut : substrFrom d (afterColon d) with
              | error e => simp [hname]
              | ok value => simp [ih]

private theorem findRedirect_ok_iff (lines : List (Bytes × Bytes)) :
    (∃ out, findRedirect lines = .ok out) ↔ ∀ line,
      ((lines.map Prod.fst).takeWhile (· ≠ [CR])).find? (fun line => lit "Location" <:+: line) =
        some line → ¬ Bare line := by
  induction lines with
  | nil => simp [findRedirect]
  | cons first lines ih =>
      obtain ⟨line, behind⟩ := first
      rw [List.map_cons, findRedirect]
      by_cases hend : line = [CR]
      · rw [if_pos hend, List.takeWhile_cons_of_neg (by simp [hend])]
        simp
      · rw [if_neg hend, List.takeWhile_cons_of_pos (by simpa using hend)]
        by_cases names : lit "Location" <:+: line
        · have found : find (lit "Location") line ≠ none := fun h => find_eq_none_iff.mp h names
          rw [if_pos found, List.find?_cons_of_pos (by simpa using names)]
          simp only [Option.some.injEq, forall_eq', ← redirectLocation_ok_iff]
          cases redirectLocation line with
          | error e => simp [Except.map]
          | ok location => simp [Except.map]
        · have absent : find (lit "Location") line = none := find_eq_none_iff.mpr names
          rw [if_neg (not_not.mpr absent), List.find?_cons_of_neg (by simpa using names), ih]

end Lines

section Replies

variable {w : World} {prefixUri : Bytes} {segments : List Bytes}

private theorem readAnswer_ok_iff :
    (∃ out, readAnswer w prefixUri (statusOf segments).2.2 (readUntil crlf [] segments).2 =
      .ok out) ↔
      ∀ line ∈ headerLines (wholeHead segments), Bare line → IsSkipped line := by
  have loop := addHeaders_ok_iff (wholeHead segments).leftover ((wholeHead segments).lines LF)
    (empty.setCode .OK)
  rw [headerLines, ← loop]
  have stream : { (statusOf segments).2.2 with
      buffer := (readUntil (crlf ++ crlf) (statusOf segments).2.2.buffer
        (readUntil crlf [] segments).2).1 } = wholeHead segments := rfl
  simp only [readAnswer, stream]
  cases addHeaders (wholeHead segments).leftover ((wholeHead segments).lines LF)
    (empty.setCode .OK) with
  | error e => simp
  | ok out => simp

private theorem readResponse_ok_iff :
    (∃ out, readResponse w prefixUri segments = .ok out) ↔ Sound segments := by
  have status : readStatus (readUntil crlf [] segments).1 = statusOf segments := rfl
  simp only [readResponse, status]
  by_cases refused :
    (statusOf segments).2.2.fail = true ∨ (statusOf segments).1.take 5 ≠ lit "HTTP/"
  · have none : ∀ code, ¬ HasStatus segments code := by
      rintro code ⟨hfail, hversion, -⟩
      rcases refused with h | h
      · rw [hfail] at h
        cases h
      · exact h hversion
    rw [if_pos refused]
    refine iff_of_true ⟨_, rfl⟩ ⟨?_, fun h => absurd h (none 200)⟩
    rintro (h | h)
    · exact absurd h (none 302)
    · exact absurd h (none 301)
  · have has : ∀ code, HasStatus segments code ↔ (statusOf segments).2.1 = code := by
      intro code
      rw [not_or, not_not, Bool.not_eq_true] at refused
      exact ⟨fun h => h.2.2, fun h => ⟨refused.1, refused.2, h⟩⟩
    have sound : Sound segments ↔
        ((statusOf segments).2.1 = 302 ∨ (statusOf segments).2.1 = 301 →
          ∃ out, findRedirect ((statusOf segments).2.2.lines LF) = .ok out) ∧
        ((statusOf segments).2.1 = 200 →
          ∃ out, readAnswer w prefixUri (statusOf segments).2.2
            (readUntil crlf [] segments).2 = .ok out) := by
      rw [readAnswer_ok_iff, findRedirect_ok_iff, ← has, ← has, ← has]
      exact ⟨fun h => ⟨h.redirect, h.answer⟩, fun h => ⟨h.1, h.2⟩⟩
    rw [if_neg refused, sound]
    by_cases redirects : (statusOf segments).2.1 = 302 ∨ (statusOf segments).2.1 = 301
    · have other : (statusOf segments).2.1 ≠ 200 := by omega
      rw [if_pos redirects]
      cases findRedirect ((statusOf segments).2.2.lines LF) with
      | error e => simp [redirects]
      | ok found =>
          cases found with
          | none => simp [other]
          | some location => simp [other]
    · rw [if_neg redirects]
      by_cases answers : (statusOf segments).2.1 = 200
      · rw [if_pos answers]
        exact ⟨fun h => ⟨fun r => absurd r redirects, fun _ => h⟩, fun h => h.2 answers⟩
      · rw [if_neg answers]
        refine iff_of_true ?_ ⟨fun h => absurd h redirects, fun h => absurd h answers⟩
        split_ifs
        · exact ⟨_, rfl⟩
        · exact ⟨_, rfl⟩

end Replies

section Chains

variable {net : Network} {h : ReverseProxyRequestHandler} {w : World} {req : Request}
  {host : Bytes} {segments : List Bytes}

private theorem not_received (unknown : net host req = none) (more : List Bytes) :
    ¬ Received net h w req host more := by
  rintro (answered | ⟨answered, -, -, -⟩)
  · cases unknown.symm.trans answered
  · cases unknown.symm.trans answered

private theorem received_last (answered : net host req = some segments)
    (last : ∀ location, readResponse w h.prefixUri segments = .ok (.redirect location) →
      (redirectUrl location).host = host ∧ (redirectUrl location).path = req.uri) :
    (∀ more, Received net h w req host more → Sound more) ↔ Sound segments := by
  constructor
  · intro all
    exact all segments (.first answered)
  · rintro sound more (answered' | ⟨answered', redirected, moved, -⟩)
    · obtain rfl := Option.some.inj (answered.symm.trans answered')
      exact sound
    · obtain rfl := Option.some.inj (answered.symm.trans answered')
      exact absurd (last _ redirected) moved

private theorem received_next {location : Bytes} (answered : net host req = some segments)
    (redirected : readResponse w h.prefixUri segments = .ok (.redirect location))
    (moved : ¬ ((redirectUrl location).host = host ∧ (redirectUrl location).path = req.uri)) :
    (∀ more, Received net h w req host more → Sound more) ↔
      ∀ more, Received net h w (getProxyRequest req (redirectUrl location))
        (redirectUrl location).host more → Sound more := by
  constructor
  · intro all more received
    exact all more (.later answered redirected moved received)
  · rintro all more (answered' | ⟨answered', redirected', -, received⟩)
    · obtain rfl := Option.some.inj (answered.symm.trans answered')
      exact readResponse_ok_iff.mp ⟨_, redirected⟩
    · obtain rfl := Option.some.inj (answered.symm.trans answered')
      cases Except.ok.inj (redirected.symm.trans redirected')
      exact all more received

end Chains

/-- A chain of redirections that ends, with a response or not, ends with a response exactly if all
that the hosts of the chain deliver is sound. -/
theorem responds_iff_sound (net : Network) (h : ReverseProxyRequestHandler) (w : World) (n : Nat)
    (req : Request) (host : Bytes) (valid : req.method ≠ .INVALID) (out : Except Fault Response)
    (ended : sendRequest net h w n req host = some out) :
    (∃ res, out = .ok res) ↔ ∀ segments, Received net h w req host segments → Sound segments := by
  induction n generalizing req host with
  | zero => cases ended
  | succ n ih =>
      cases answered : net host req with
      | none =>
          rw [sendRequest_unreached valid answered] at ended
          obtain rfl := Option.some.inj ended
          exact iff_of_true ⟨_, rfl⟩
            (fun more received => absurd received (not_received answered more))
      | some segments =>
          rw [sendRequest_succ valid answered] at ended
          cases hread : readResponse w h.prefixUri segments with
          | error e =>
              simp only [hread] at ended
              obtain rfl := Option.some.inj ended
              rw [received_last answered (by simp [hread]), ← readResponse_ok_iff, hread]
              simp
          | ok found =>
              cases found with
              | respond res =>
                  simp only [hread] at ended
                  obtain rfl := Option.some.inj ended
                  rw [received_last answered (by simp [hread]), ← readResponse_ok_iff, hread]
                  simp
              | redirect location =>
                  simp only [hread, handleRedirect] at ended
                  split_ifs at ended with same
                  · obtain rfl := Option.some.inj ended
                    have last : ∀ l, readResponse w h.prefixUri segments = .ok (.redirect l) →
                        (redirectUrl l).host = host ∧ (redirectUrl l).path = req.uri := by
                      intro l hl
                      cases Except.ok.inj (hread.symm.trans hl)
                      exact same
                    rw [received_last answered last, ← readResponse_ok_iff, hread]
                    simp
                  · rw [received_next answered hread same]
                    exact ih _ _ valid ended

def movedNetwork : Network := fun host _ =>
  if host = lit "a" then some [lit "HTTP/1.1 302 Found\r\nLocation: http://b/\r\n\r\n"]
  else some [lit "HTTP/1.1 200 OK\r\nA", lit ": b\r\n\r\nhi"]

theorem responds_moved :
    ∃ res, sendRequest movedNetwork ⟨lit "/p/", lit "http://a/", lit "80", lit "a", lit "/"⟩
        ⟨fun _ => none, []⟩ 2 ⟨.GET, lit "/", lit "HTTP/1.0", ∅, []⟩ (lit "a") = some (.ok res) ∧
      ∀ segments, Received movedNetwork ⟨lit "/p/", lit "http://a/", lit "80", lit "a", lit "/"⟩
        ⟨fun _ => none, []⟩ ⟨.GET, lit "/", lit "HTTP/1.0", ∅, []⟩ (lit "a") segments →
          Sound segments :=
  ⟨_, rfl, (responds_iff_sound movedNetwork _ _ 2 _ _ (by decide) _ rfl).mp ⟨_, rfl⟩⟩

/-- A header without a value, and without the space before it, ends the call with an exception, and
an empty line is popped from. -/
theorem bare_lines_raise :
    sendRequest (fun _ _ => some [lit "HTTP/1.1 200 OK\r\nX:\r\n\r\n"])
        ⟨lit "/p/", lit "http://a/", lit "80", lit "a", lit "/"⟩ ⟨fun _ => none, []⟩ 1
        ⟨.GET, lit "/", lit "HTTP/1.0", ∅, []⟩ (lit "a") = some (.error .outOfRange) ∧
      sendRequest (fun _ _ => some [lit "HTTP/1.1 200 OK\r\n\nA: b\r\n\r\n"])
        ⟨lit "/p/", lit "http://a/", lit "80", lit "a", lit "/"⟩ ⟨fun _ => none, []⟩ 1
        ⟨.GET, lit "/", lit "HTTP/1.0", ∅, []⟩ (lit "a") = some (.error .undefinedBehaviour) :=
  ⟨rfl, rfl⟩

end Wnza.Handler.BareLines
