/- GID: Wnza/Http/Recognition
   generality: I
   source: src/request_parser.cc
   digest: The parser accepts exactly the grammar of requests without continuation lines. -/

import Wnza.Http.Grammar

set_option autoImplicit false
set_option relaxedAutoImplicit false

namespace Wnza.Http.Recognition

open Wnza.Foundation.Feed
open Wnza.Foundation.FirstInsert
open Wnza.Http.Text
open Wnza.Http.Parser
open Wnza.Http.Grammar

/-- The part of a protocol version that has been read when the parser is in a given state. -/
inductive VersionPrefix : Bytes → State → Prop
  | h : VersionPrefix [] .httpVersionH
  | t1 : VersionPrefix (lit "H") .httpVersionT1
  | t2 : VersionPrefix (lit "HT") .httpVersionT2
  | p : VersionPrefix (lit "HTT") .httpVersionP
  | slash : VersionPrefix (lit "HTTP") .httpVersionSlash
  | majorStart : VersionPrefix (lit "HTTP/") .httpVersionMajorStart
  | major {a : Bytes} (ha : IsDigits a) : VersionPrefix (lit "HTTP/" ++ a) .httpVersionMajor
  | minorStart {a : Bytes} (ha : IsDigits a) :
      VersionPrefix (lit "HTTP/" ++ a ++ [DOT]) .httpVersionMinorStart
  | minor {a b : Bytes} (ha : IsDigits a) (hb : IsDigits b) :
      VersionPrefix (versionText a b) .httpVersionMinor

/-- The bytes that lead a fresh parser to a state without a verdict, when no line of the head
is a continuation line. -/
inductive Shape : Bytes → Parsing → Prop
  | methodStart : Shape [] (opening [] [] [] .methodStart)
  | method {m : Bytes} (hm : IsTokenWord m) : Shape m (opening m [] [] .method)
  | uri {m u : Bytes} (hm : IsTokenWord m) (hu : IsUri u) :
      Shape (m ++ SP :: u) (opening m u [] .uri)
  | version {m u v : Bytes} {st : State} (hm : IsTokenWord m) (hu : IsUri u)
      (hv : VersionPrefix v st) : Shape (m ++ SP :: u ++ SP :: v) (opening m u v st)
  | newline1 (l : RequestLine) :
      Shape (l.text ++ [CR]) (opening l.method l.uri l.version .expectingNewline1)
  | lineStart (l : RequestLine) {hs : List Header} (lines : HeaderLines hs)
      (acc : LengthsAccepted hs.dropLast) : Shape (head l hs) (lineStart l hs .headerLineStart)
  | newline3 (l : RequestLine) {hs : List Header} (lines : HeaderLines hs)
      (acc : LengthsAccepted hs.dropLast) :
      Shape (head l hs ++ [CR]) (lineStart l hs .expectingNewline3)
  | name (l : RequestLine) {hs : List Header} {key : Bytes} (lines : HeaderLines hs)
      (acc : LengthsAccepted hs) (hkey : IsTokenWord key) :
      Shape (head l hs ++ key) (stage l hs (lengthOf hs) .headerName key [] [])
  | space (l : RequestLine) {hs : List Header} {key : Bytes} (lines : HeaderLines hs)
      (acc : LengthsAccepted hs) (hkey : IsTokenWord key) :
      Shape (head l hs ++ (key ++ [COLON]))
        (stage l hs (lengthOf hs) .spaceBeforeHeaderValue key [] [])
  | value (l : RequestLine) {hs : List Header} {key val : Bytes} (lines : HeaderLines hs)
      (acc : LengthsAccepted hs) (hkey : IsTokenWord key) (hval : IsValue val) :
      Shape (head l hs ++ (key ++ COLON :: SP :: val))
        (stage l hs (lengthOf hs) .headerValue key val [])
  | newline2 (l : RequestLine) {hs : List Header} {key val : Bytes} (lines : HeaderLines hs)
      (acc : LengthsAccepted hs) (hkey : IsTokenWord key) (hval : IsValue val) :
      Shape (head l hs ++ (key ++ COLON :: SP :: val ++ [CR]))
        (stage l hs (lengthOf hs) .expectingNewline2 key val [])
  | body (l : RequestLine) {hs : List Header} (lines : HeaderLines hs)
      (acc : LengthsAccepted hs) (b : Bytes) :
      Shape (head l hs ++ crlf ++ b) (stage l hs (lengthOf hs - b.length) .body [] [] b)

theorem accepted_of_commitHeader {l : RequestLine} {hs : List Header} {st : State} {t : Parsing}
    (lines : HeaderLines hs) (acc : LengthsAccepted hs.dropLast)
    (h : (lineStart l hs st).commitHeader = .ok t) : LengthsAccepted hs := by
  induction hs using List.reverseRecOn with
  | nil => simp [LengthsAccepted]
  | append_singleton hs k _ =>
      rw [List.dropLast_concat] at acc
      refine forall_mem_concat acc ?_
      intro hc
      rw [lineStart_concat] at h
      obtain ⟨hkey, -⟩ | ⟨-, n, -, hn, -⟩ := Parsing.commitHeader_inv h
      · exact absurd hkey (lines k (by simp)).1.1
      · exact ⟨n, hn hc⟩

private theorem VersionPrefix.step {m u v x : Bytes} {st : State} {c : UInt8} {t : Parsing}
    (hm : IsTokenWord m) (hu : IsUri u) (hv : VersionPrefix v st)
    (hx : x = m ++ SP :: u ++ SP :: v) (hc : consume (opening m u v st) c = indeterminate t) :
    Shape (x ++ [c]) t := by
  have go : ∀ st', VersionPrefix (v ++ [c]) st' →
      Shape (x ++ [c]) (opening m u (v ++ [c]) st') := by
    intro st' hv'
    rw [hx]
    simpa using Shape.version hm hu hv'
  cases hv with
  | h | t1 | t2 | p | slash =>
      simp only [consume, opening_state, expectVersion] at hc
      split_ifs at hc with heq
      · obtain rfl := indeterminate_inj.mp hc
        subst heq
        exact go _ (by constructor)
      · exact absurd hc bad_ne_indeterminate
  | majorStart =>
      simp only [consume, opening_state, expectDigit] at hc
      split_ifs at hc with hd
      · obtain rfl := indeterminate_inj.mp hc
        exact go _ (.major (.singleton hd))
      · exact absurd hc bad_ne_indeterminate
  | @major a ha =>
      simp only [consume, opening_state] at hc
      split_ifs at hc with hdot hd
      · obtain rfl := indeterminate_inj.mp hc
        subst hdot
        exact go _ (.minorStart ha)
      · obtain rfl := indeterminate_inj.mp hc
        refine go _ ?_
        rw [List.append_assoc]
        exact .major (ha.concat hd)
      · exact absurd hc bad_ne_indeterminate
  | @minorStart a ha =>
      simp only [consume, opening_state, expectDigit] at hc
      split_ifs at hc with hd
      · obtain rfl := indeterminate_inj.mp hc
        refine go _ ?_
        rw [List.append_assoc]
        exact .minor ha (.singleton hd)
      · exact absurd hc bad_ne_indeterminate
  | @minor a b ha hb =>
      simp only [consume, opening_state] at hc
      split_ifs at hc with hcr hd
      · obtain rfl := indeterminate_inj.mp hc
        subst hcr hx
        exact .newline1 ⟨m, u, a, b, hm, hu, ha, hb⟩
      · obtain rfl := indeterminate_inj.mp hc
        refine go _ ?_
        have grown : versionText a b ++ [c] = versionText a (b ++ [c]) := by simp [versionText]
        rw [grown]
        exact .minor ha (hb.concat hd)
      · exact absurd hc bad_ne_indeterminate

theorem Shape.step {x : Bytes} {s t : Parsing} {c : UInt8} (h : Shape x s)
    (unfolded : s.parser.state = .headerLineStart → c ≠ SP ∧ c ≠ TAB)
    (hc : machine s c = .next t) : Shape (x ++ [c]) t := by
  rw [machine_next_iff] at hc
  cases h with
  | methodStart =>
      simp only [consume, opening_state, Bool.not_eq_true'] at hc
      split_ifs at hc with ht
      · exact absurd hc bad_ne_indeterminate
      · obtain rfl := indeterminate_inj.mp hc
        exact .method (.singleton (by simpa using ht))
  | method hm =>
      simp only [consume, opening_state, Bool.not_eq_true'] at hc
      split_ifs at hc with hsp ht
      · obtain rfl := indeterminate_inj.mp hc
        subst hsp
        exact .uri hm (by simp [IsUri])
      · exact absurd hc bad_ne_indeterminate
      · obtain rfl := indeterminate_inj.mp hc
        exact .method (hm.concat (by simpa using ht))
  | uri hm hu =>
      simp only [consume, opening_state] at hc
      split_ifs at hc with hsp hctl
      · obtain rfl := indeterminate_inj.mp hc
        subst hsp
        exact .version hm hu .h
      · exact absurd hc bad_ne_indeterminate
      · obtain rfl := indeterminate_inj.mp hc
        rw [List.append_assoc, List.cons_append]
        exact .uri hm (forall_mem_concat hu ⟨hsp, by simpa using hctl⟩)
  | version hm hu hv => exact hv.step hm hu rfl hc
  | newline1 l =>
      simp only [consume, opening_state, expectNewline] at hc
      split_ifs at hc with hlf
      · obtain rfl := indeterminate_inj.mp hc
        subst hlf
        have text : l.text ++ [CR] ++ [LF] = head l [] := by simp [head]
        rw [text]
        exact .lineStart l (by simp [HeaderLines]) (by simp [LengthsAccepted])
      · exact absurd hc bad_ne_indeterminate
  | @lineStart l hs lines acc =>
      obtain ⟨hsp, htab⟩ := unfolded rfl
      simp only [consume, lineStart_state, Bool.not_eq_true', hsp, htab, decide_false,
        Bool.or_self, Bool.and_false] at hc
      split_ifs at hc with hcr hfalse ht
      · obtain rfl := indeterminate_inj.mp hc
        subst hcr
        exact .newline3 l lines acc
      · exact absurd hfalse (by simp)
      · exact absurd hc bad_ne_indeterminate
      · cases hcommit : (Grammar.lineStart l hs .headerLineStart).commitHeader with
        | error e => simp [hcommit, indeterminate] at hc
        | ok r =>
            have all : LengthsAccepted hs := accepted_of_commitHeader lines acc hcommit
            obtain ⟨key, val, commit, -⟩ := commitHeader_lineStart l .headerLineStart lines all
            rw [commit] at hc
            obtain rfl := indeterminate_inj.mp hc
            exact .name l lines all (.singleton (by simpa using ht))
  | @newline3 l hs lines acc =>
      cases hcommit : (Grammar.lineStart l hs .expectingNewline3).commitHeader with
      | error e => simp [consume, hcommit, indeterminate] at hc
      | ok r =>
          have all : LengthsAccepted hs := accepted_of_commitHeader lines acc hcommit
          by_cases hlf : c = LF
          · subst hlf
            rw [consume_blankLine l lines all] at hc
            split_ifs at hc with hzero
            · exact absurd hc good_ne_indeterminate
            · obtain rfl := indeterminate_inj.mp hc
              simpa using Shape.body l lines all []
          · simp [consume, hcommit, hlf] at hc
  | @name l hs key lines acc hkey =>
      simp only [consume, stage_state, Bool.not_eq_true'] at hc
      split_ifs at hc with hcolon ht
      · obtain rfl := indeterminate_inj.mp hc
        subst hcolon
        rw [List.append_assoc]
        exact .space l lines acc hkey
      · exact absurd hc bad_ne_indeterminate
      · obtain rfl := indeterminate_inj.mp hc
        rw [List.append_assoc]
        exact .name l lines acc (hkey.concat (by simpa using ht))
  | @space l hs key lines acc hkey =>
      simp only [consume, stage_state] at hc
      split_ifs at hc with hsp
      · obtain rfl := indeterminate_inj.mp hc
        subst hsp
        simpa using Shape.value l lines acc hkey (show IsValue [] by simp [IsValue])
      · exact absurd hc bad_ne_indeterminate
  | @value l hs key val lines acc hkey hval =>
      simp only [consume, stage_state] at hc
      split_ifs at hc with hcr hctl
      · obtain rfl := indeterminate_inj.mp hc
        subst hcr
        simpa using Shape.newline2 l lines acc hkey hval
      · exact absurd hc bad_ne_indeterminate
      · obtain rfl := indeterminate_inj.mp hc
        have longer : IsValue (val ++ [c]) := forall_mem_concat hval (by simpa using hctl)
        simpa using Shape.value l lines acc hkey longer
  | @newline2 l hs key val lines acc hkey hval =>
      simp only [consume, stage_state, expectNewline] at hc
      split_ifs at hc with hlf
      · obtain rfl := indeterminate_inj.mp hc
        subst hlf
        have text : head l hs ++ (key ++ COLON :: SP :: val ++ [CR]) ++ [LF] =
            head l (hs ++ [(key, val)]) := by simp [head, headerLine]
        have more : HeaderLines (hs ++ [(key, val)]) := forall_mem_concat lines ⟨hkey, hval⟩
        rw [text, stage_goto, ← lineStart_concat (key, val)]
        exact .lineStart l more (by rwa [List.dropLast_concat])
      · exact absurd hc bad_ne_indeterminate
  | @body l hs lines acc b =>
      rw [consume_body] at hc
      split_ifs at hc with hzero
      · exact absurd hc good_ne_indeterminate
      · obtain rfl := indeterminate_inj.mp hc
        have counted : lengthOf hs - (b.length : Int) - 1 = lengthOf hs - (b ++ [c]).length := by
          simp only [List.length_append, List.length_cons, List.length_nil]
          omega
        rw [counted, List.append_assoc]
        exact .body l lines acc (b ++ [c])

/-- No header line begins with a space or a tab: every blank after a line end comes after the
blank line that ends the head. -/
def NoContinuation (w : Bytes) : Prop :=
  ∀ x c y, w = x ++ CR :: LF :: c :: y → c = SP ∨ c = TAB → crlf ++ crlf <:+: x ++ crlf

private theorem blank_line_after_line {line rest : Bytes} (hline : CR ∉ line)
    (h : crlf ++ crlf <:+: line ++ crlf ++ rest) :
    crlf ++ crlf <:+: rest ∨ crlf <+: rest := by
  induction line with
  | nil =>
      rcases List.infix_cons_iff.mp h with h | h
      · right
        simpa using h
      · rcases List.infix_cons_iff.mp h with h | h
        · exact absurd (List.cons_prefix_cons.mp h).1 (by decide)
        · left
          exact h
  | cons c line ih =>
      have hc : CR ≠ c := fun h => hline (by simp [h])
      rcases List.infix_cons_iff.mp h with h | h
      · simp [hc] at h
      · exact ih (fun h => hline (by simp [h])) h

private theorem no_blank_line (lines : List Bytes) (h : ∀ l ∈ lines, l ≠ [] ∧ CR ∉ l) :
    ¬ crlf ++ crlf <:+: lines.flatMap (· ++ crlf) := by
  induction lines with
  | nil => simp
  | cons l ls ih =>
      intro hin
      have rest : ∀ k ∈ ls, k ≠ [] ∧ CR ∉ k := fun k hk => h k (by simp [hk])
      rcases blank_line_after_line (h l (by simp)).2 (by simpa using hin) with hin | hpre
      · exact ih rest hin
      · cases ls with
        | nil => simp at hpre
        | cons k ks =>
            obtain ⟨hne, hcr⟩ := rest k (by simp)
            obtain ⟨c, k, rfl⟩ := List.exists_cons_of_ne_nil hne
            have hc : CR ≠ c := fun h => hcr (by simp [h])
            simp [hc] at hpre

private theorem head_no_blank_line {hs : List Header} (l : RequestLine) (lines : HeaderLines hs) :
    ¬ crlf ++ crlf <:+: head l hs := by
  have text : head l hs =
      (l.text :: hs.map (fun h => h.1 ++ COLON :: SP :: h.2)).flatMap (· ++ crlf) := by
    simp only [head, List.flatMap_cons, List.flatMap_map]
    rfl
  rw [text]
  have ctl : isCtl CR = true := by decide
  apply no_blank_line
  intro k hk
  rcases List.mem_cons.mp hk with rfl | hk
  · exact ⟨by simp [RequestLine.text], l.ctl_not_mem_text ctl⟩
  · obtain ⟨h, hh, rfl⟩ := List.mem_map.mp hk
    have hkey := (lines h hh).1.ctl_not_mem ctl
    have hval := (lines h hh).2.ctl_not_mem ctl
    have hcolon : CR ≠ COLON := by decide
    have hsp : CR ≠ SP := by decide
    exact ⟨by simp, by simp [hkey, hval, hcolon, hsp]⟩

private theorem head_ends_line (l : RequestLine) (hs : List Header) :
    ∃ x, head l hs = x ++ crlf := by
  induction hs using List.reverseRecOn with
  | nil => exact ⟨l.text, by simp [head]⟩
  | append_singleton hs h _ =>
      exact ⟨head l hs ++ (h.1 ++ COLON :: SP :: h.2), by simp [head, headerLine]⟩

private theorem Shape.lineStart_inv {x : Bytes} {s : Parsing} (h : Shape x s)
    (hs : s.parser.state = .headerLineStart) : ∃ l ks, HeaderLines ks ∧ x = head l ks := by
  cases h with
  | @lineStart l ks lines acc => exact ⟨l, ks, lines, rfl⟩
  | version hm hu hv => cases hv <;> cases hs
  | _ => cases hs

private theorem shape_of_feed {w x : Bytes} {s : Parsing} (plain : NoContinuation w) (hx : x <+: w)
    (h : feed machine .fresh x = .more s) : Shape x s := by
  refine feed_more_induction (P := Shape) .methodStart ?_ h
  intro as b u v pre shape hb
  refine shape.step ?_ hb
  intro hu
  obtain ⟨l, ks, lines, rfl⟩ := shape.lineStart_inv hu
  obtain ⟨x', hx'⟩ := head_ends_line l ks
  obtain ⟨y, hy⟩ := pre.trans hx
  by_contra hblank
  refine head_no_blank_line l lines ?_
  rw [hx']
  refine plain x' b y ?_ (by tauto)
  rw [← hy, hx']
  simp

private theorem Shape.good_inv {x : Bytes} {s t : Parsing} {c : UInt8} (h : Shape x s)
    (hc : consume s c = good t) : ∃ m : Message, x ++ [c] = m.encode ∧ t = m.final := by
  have ends := state_of_consume_good hc
  cases h with
  | @newline3 l hs lines acc =>
      cases hcommit : (Grammar.lineStart l hs .expectingNewline3).commitHeader with
      | error e => simp [consume, hcommit, good] at hc
      | ok r =>
          have all : LengthsAccepted hs := accepted_of_commitHeader lines acc hcommit
          by_cases hlf : c = LF
          · subst hlf
            rw [consume_blankLine l lines all] at hc
            split_ifs at hc with hzero
            · obtain rfl := good_inj.mp hc
              have declared : declaredLength hs = .ok ([] : Bytes).length := by
                rw [declaredLength_eq all, hzero]
                rfl
              refine ⟨⟨l, hs, [], lines, all, declared⟩, by simp [Message.encode], ?_⟩
              simp [Message.final, hzero]
            · exact absurd hc indeterminate_ne_good
          · simp [consume, hcommit, hlf] at hc
  | @body l hs lines acc b =>
      rw [consume_body] at hc
      split_ifs at hc with hzero
      · obtain rfl := good_inj.mp hc
        have declared : declaredLength hs = .ok (b ++ [c]).length := by
          rw [declaredLength_eq acc]
          congr 1
          simp only [List.length_append, List.length_cons, List.length_nil]
          omega
        refine ⟨⟨l, hs, b ++ [c], lines, acc, declared⟩, by simp [Message.encode], ?_⟩
        simp [Message.final, hzero]
      · exact absurd hc indeterminate_ne_good
  | version hm hu hv => cases hv <;> simp at ends
  | _ => simp at ends

private theorem encode_of_feed {w rest : Bytes} {t : Parsing} (plain : NoContinuation w)
    (h : feed machine .fresh w = .done .good t rest) :
    ∃ m : Message, w = m.encode ++ rest ∧ t = m.final := by
  obtain ⟨as, c, s, rfl, ha, hc⟩ := feed_done_iff.mp h
  have shape := shape_of_feed plain (List.prefix_append as _) ha
  obtain ⟨m, hm, ht⟩ := shape.good_inv (machine_stop_iff.mp hc).1
  exact ⟨m, by simp [← hm], ht⟩

/-- The method that a token names; a token other than the four names none. -/
inductive NamesMethod : Bytes → Method → Prop
  | get : NamesMethod (lit "GET") .GET
  | post : NamesMethod (lit "POST") .POST
  | put : NamesMethod (lit "PUT") .PUT
  | head : NamesMethod (lit "HEAD") .HEAD
  | other {token : Bytes} (get : token ≠ lit "GET") (post : token ≠ lit "POST")
      (put : token ≠ lit "PUT") (head : token ≠ lit "HEAD") : NamesMethod token .INVALID

private theorem namesMethod_iff {token : Bytes} {x : Method} :
    NamesMethod token x ↔ x = methodOf token := by
  constructor
  · intro names
    cases names with
    | get | post | put | head => decide
    | other get post put head =>
        rw [methodOf, if_neg get, if_neg post, if_neg put, if_neg head]
  · rintro rfl
    unfold methodOf
    split_ifs with get post put head
    · exact get ▸ .get
    · exact post ▸ .post
    · exact put ▸ .put
    · exact head ▸ .head
    · exact .other get post put head

/-- The fields of a request are those of a message: its substrings, the first value of each
header name, and the method its token names. -/
structure Delivers (m : Message) (req : Request) : Prop where
  method : NamesMethod m.line.method req.method
  uri : req.uri = m.line.uri
  version : req.version = m.line.version
  headers : ∀ name, req.headers[name]? = firstValue m.headers name
  body : req.body = m.body

private theorem delivers_iff {m : Message} {req : Request} : Delivers m req ↔ req = m.request := by
  have lookup : ∀ name, (m.request).headers[name]? = firstValue m.headers name := by
    intro name
    simp [Message.request, getElem?_insertFirst]
  constructor
  · rintro ⟨names, hu, hv, hh, hb⟩
    have hm := namesMethod_iff.mp names
    have hmap : req.headers = (m.request).headers :=
      Std.ExtTreeMap.ext_getElem? (fun name => (hh name).trans (lookup name).symm)
    cases req
    simp_all [Message.request]
  · rintro rfl
    exact ⟨namesMethod_iff.mpr rfl, rfl, rfl, lookup, rfl⟩

/-- The parser accepts exactly its grammar: it reports good after the first `k` bytes iff
these are one message, and then delivers that message. -/
theorem parse_good_iff_message (w : Bytes) (plain : NoContinuation w) (k : Nat)
    (req : Request) :
    (∃ r, parse .fresh 0 w = .ok r ∧ r.result = .good ∧ r.begin = k ∧
        r.parsing.request = req) ↔
      ∃ m : Message, k ≤ w.length ∧ w.take k = m.encode ∧ Delivers m req := by
  constructor
  · rintro ⟨r, hr, hgood, rfl, rfl⟩
    obtain ⟨t, rest, run, -, hresult⟩ := parse_verdict_inv hr (by simp [hgood])
    rw [hgood] at run
    obtain ⟨m, rfl, rfl⟩ := encode_of_feed plain run
    have read : r.begin = m.encode.length := by
      rw [hresult]
      simp
    refine ⟨m, by simp [read], by simp [read], delivers_iff.mpr ?_⟩
    rw [hresult]
    rfl
  · rintro ⟨m, hk, htake, hreq⟩
    obtain rfl := delivers_iff.mp hreq
    have split : w = m.encode ++ w.drop k := by rw [← htake, List.take_append_drop]
    have hlen : m.encode.length = k := by rw [← htake, List.length_take, min_eq_left hk]
    have hf : feed machine .fresh w = .done .good m.final (w.drop k) := by
      rw [split, feed_append, feed_encode, Outcome.resume]
      simp [← hlen]
    refine ⟨_, parse_of_done hf 0, ?_, ?_, m.final_request⟩
    · simp [Message.final]
    · simp only [List.length_drop]
      omega

private theorem noContinuation_of_not_infix {w : Bytes} (hsp : ¬ [CR, LF, SP] <:+: w)
    (htab : ¬ [CR, LF, TAB] <:+: w) : NoContinuation w := by
  rintro x c y rfl (rfl | rfl)
  · exact absurd ⟨x, y, by simp⟩ hsp
  · exact absurd ⟨x, y, by simp⟩ htab

theorem parse_good_iff_message_put :
    NoContinuation (lit "PUT /a HTTP/1.1\r\nContent-Length: 2\r\n\r\nok!") ∧
    ∃ m : Message,
      (lit "PUT /a HTTP/1.1\r\nContent-Length: 2\r\n\r\nok!").take 40 = m.encode ∧
      Delivers m ⟨.PUT, lit "/a", lit "HTTP/1.1",
        (∅ : Headers).insertIfNew (lit "Content-Length") (lit "2"), lit "ok"⟩ := by
  have plain : NoContinuation (lit "PUT /a HTTP/1.1\r\nContent-Length: 2\r\n\r\nok!") :=
    noContinuation_of_not_infix (by decide) (by decide)
  obtain ⟨m, -, hm, hreq⟩ := (parse_good_iff_message _ plain 40 _).mp
    ⟨_, rfl, rfl, rfl, rfl⟩
  exact ⟨plain, m, hm, hreq⟩

end Wnza.Http.Recognition
