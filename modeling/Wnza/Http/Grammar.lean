/- GID: Wnza/Http/Grammar
   generality: I
   source: src/request_parser.cc
   digest: Requests as they stand on the wire, and the run of the parser over each of them. -/

import Wnza.Foundation.FirstInsert
import Wnza.Http.Parser

set_option autoImplicit false
set_option relaxedAutoImplicit false

namespace Wnza.Http.Grammar

open Wnza.Foundation.Feed
open Wnza.Foundation.FirstInsert
open Wnza.Http.Text
open Wnza.Http.Parser

abbrev Header := Bytes × Bytes

def IsTokenWord (w : Bytes) : Prop := w ≠ [] ∧ ∀ c ∈ w, isToken c = true

def IsDigits (w : Bytes) : Prop := w ≠ [] ∧ ∀ c ∈ w, isDigit c = true

def IsUri (w : Bytes) : Prop := ∀ c ∈ w, c ≠ SP ∧ isCtl c = false

def IsValue (w : Bytes) : Prop := ∀ c ∈ w, isCtl c = false

instance : DecidablePred IsTokenWord := fun w =>
  decidable_of_iff (w ≠ [] ∧ w.all isToken = true) (by simp [IsTokenWord])

instance : DecidablePred IsDigits := fun w =>
  decidable_of_iff (w ≠ [] ∧ w.all isDigit = true) (by simp [IsDigits])

instance : DecidablePred IsUri := fun w =>
  decidable_of_iff (w.all (fun c => c != SP && !isCtl c) = true) (by simp [IsUri])

instance : DecidablePred IsValue := fun w =>
  decidable_of_iff (w.all (fun c => !isCtl c) = true) (by simp [IsValue])

theorem IsTokenWord.concat {w : Bytes} {c : UInt8} (hw : IsTokenWord w)
    (hc : isToken c = true) : IsTokenWord (w ++ [c]) :=
  ⟨by simp, forall_mem_concat hw.2 hc⟩

theorem IsTokenWord.singleton {c : UInt8} (hc : isToken c = true) : IsTokenWord [c] :=
  ⟨by simp, by simpa using hc⟩

theorem IsDigits.concat {w : Bytes} {c : UInt8} (hw : IsDigits w)
    (hc : isDigit c = true) : IsDigits (w ++ [c]) :=
  ⟨by simp, forall_mem_concat hw.2 hc⟩

theorem IsDigits.singleton {c : UInt8} (hc : isDigit c = true) : IsDigits [c] :=
  ⟨by simp, by simpa using hc⟩

section ControlBytes

variable {w : Bytes} {c : UInt8}

theorem IsTokenWord.ctl_not_mem (hw : IsTokenWord w) (hc : isCtl c = true) : c ∉ w :=
  fun h => isToken_ne (hw.2 c h) (isToken_of_isCtl hc) rfl

private theorem IsDigits.ctl_not_mem (hw : IsDigits w) (hc : isCtl c = true) : c ∉ w :=
  fun h => isDigit_ne (hw.2 c h) (isDigit_of_isCtl hc) rfl

private theorem IsUri.ctl_not_mem (hw : IsUri w) (hc : isCtl c = true) : c ∉ w :=
  fun h => isCtl_ne (hw c h).2 hc rfl

theorem IsValue.ctl_not_mem (hw : IsValue w) (hc : isCtl c = true) : c ∉ w :=
  fun h => isCtl_ne (hw c h) hc rfl

theorem isValue_append {v : Bytes} : IsValue (v ++ w) ↔ IsValue v ∧ IsValue w :=
  List.forall_mem_append

theorem IsUri.isValue (hw : IsUri w) : IsValue w := fun c hc => (hw c hc).2

theorem IsDigits.isValue (hw : IsDigits w) : IsValue w := by
  intro c hc
  by_contra h
  exact hw.ctl_not_mem (by simpa using h) hc

theorem isValue_of_tokens (hw : ∀ c ∈ w, isToken c = true) : IsValue w := by
  intro c hc
  by_contra h
  have rejected := isToken_of_isCtl (show isCtl c = true by simpa using h)
  exact isToken_ne (hw c hc) rejected rfl

end ControlBytes

/-- The words of a request line: any method token, a possibly empty URI, a version number. -/
structure RequestLine where
  method : Bytes
  uri : Bytes
  major : Bytes
  minor : Bytes
  method_token : IsTokenWord method
  uri_bytes : IsUri uri
  major_digits : IsDigits major
  minor_digits : IsDigits minor

def versionText (major minor : Bytes) : Bytes := lit "HTTP/" ++ major ++ DOT :: minor

def RequestLine.version (l : RequestLine) : Bytes := versionText l.major l.minor

/-- The request line without its line end. -/
def RequestLine.text (l : RequestLine) : Bytes := l.method ++ SP :: l.uri ++ SP :: l.version

theorem RequestLine.ctl_not_mem_text (l : RequestLine) {c : UInt8} (hc : isCtl c = true) :
    c ∉ l.text := by
  have name : c ∉ lit "HTTP/" := IsValue.ctl_not_mem (by decide) hc
  have space : c ≠ SP := (isCtl_ne (show isCtl SP = false by decide) hc).symm
  have dot : c ≠ DOT := (isCtl_ne (show isCtl DOT = false by decide) hc).symm
  simp [RequestLine.text, RequestLine.version, versionText, name, space, dot,
    l.method_token.ctl_not_mem hc, l.uri_bytes.ctl_not_mem hc, l.major_digits.ctl_not_mem hc,
    l.minor_digits.ctl_not_mem hc]

def headerLine (h : Header) : Bytes := h.1 ++ COLON :: SP :: h.2 ++ crlf

def head (l : RequestLine) (hs : List Header) : Bytes := l.text ++ crlf ++ hs.flatMap headerLine

abbrev contentLength : Bytes := lit "Content-Length"

/-- The value of the last header line named `Content-Length`. -/
def lastLength (hs : List Header) : Option Bytes :=
  ((hs.filter (fun h => h.1 = contentLength)).getLast?).map Prod.snd

def declaredLength (hs : List Header) : Except Fault Int :=
  match lastLength hs with
  | none => .ok 0
  | some v => stoi v

def HeaderLines (hs : List Header) : Prop := ∀ h ∈ hs, IsTokenWord h.1 ∧ IsValue h.2

/-- `std::stoi` accepts the value of every line named `Content-Length`. -/
def LengthsAccepted (hs : List Header) : Prop :=
  ∀ h ∈ hs, h.1 = contentLength → ∃ n, stoi h.2 = .ok n

/-- A complete request without continuation lines. -/
structure Message where
  line : RequestLine
  headers : List Header
  body : Bytes
  header_lines : HeaderLines headers
  lengths_accepted : LengthsAccepted headers
  body_declared : declaredLength headers = .ok body.length

def Message.encode (m : Message) : Bytes := head m.line m.headers ++ crlf ++ m.body

/-- The request that a message denotes: of the lines with one name the first one counts. -/
def Message.request (m : Message) : Request where
  method := methodOf m.line.method
  uri := m.line.uri
  version := m.line.version
  headers := insertFirst ∅ m.headers
  body := m.body

theorem declaredLength_concat (hs : List Header) (h : Header) :
    declaredLength (hs ++ [h]) =
      if h.1 = contentLength then stoi h.2 else declaredLength hs := by
  unfold declaredLength lastLength
  rw [List.filter_append]
  by_cases hc : h.1 = contentLength <;> simp [hc]

private theorem exists_declaredLength {hs : List Header} (acc : LengthsAccepted hs) :
    ∃ n, declaredLength hs = .ok n := by
  induction hs using List.reverseRecOn with
  | nil => exact ⟨0, rfl⟩
  | append_singleton hs h ih =>
      rw [declaredLength_concat]
      split
      · rename_i hc
        exact acc h (by simp) hc
      · exact ih (fun k hk => acc k (by simp [hk]))

def lengthOf (hs : List Header) : Int :=
  match declaredLength hs with
  | .ok n => n
  | .error _ => 0

theorem declaredLength_eq {hs : List Header} (acc : LengthsAccepted hs) :
    declaredLength hs = .ok (lengthOf hs) := by
  obtain ⟨n, hn⟩ := exists_declaredLength acc
  simp only [lengthOf, hn]

def opening (method uri version : Bytes) (st : State) : Parsing :=
  ⟨⟨.GET, uri, version, ∅, []⟩, ⟨st, [], [], method, 0⟩⟩

/-- The parser after the header lines `hs` have been put into the map. -/
def stage (l : RequestLine) (hs : List Header) (n : Int) (st : State)
    (key val body : Bytes) : Parsing :=
  ⟨⟨.GET, l.uri, l.version, insertFirst ∅ hs, body⟩, ⟨st, key, val, l.method, n⟩⟩

/-- The parser at the start of a line after the header lines `hs`, the last one pending. -/
def lineStart (l : RequestLine) (hs : List Header) (st : State) : Parsing :=
  stage l hs.dropLast (lengthOf hs.dropLast) st
    ((hs.getLast?.map Prod.fst).getD []) ((hs.getLast?.map Prod.snd).getD []) []

section StageFields

variable {l : RequestLine} {hs : List Header} {n : Int} {st st' : State}
  {m u v key val body : Bytes} {c : UInt8}

@[simp] theorem opening_state : (opening m u v st).parser.state = st := rfl

@[simp] theorem opening_goto : (opening m u v st).goto st' = opening m u v st' := rfl

@[simp] theorem opening_pushMethod :
    (opening m u v st).pushMethod c = opening (m ++ [c]) u v st := rfl

@[simp] theorem opening_pushUri :
    (opening m u v st).pushUri c = opening m (u ++ [c]) v st := rfl

@[simp] theorem opening_pushVersion :
    (opening m u v st).pushVersion c = opening m u (v ++ [c]) st := rfl

@[simp] theorem stage_state : (stage l hs n st key val body).parser.state = st := rfl

@[simp] theorem stage_bodyLength :
    (stage l hs n st key val body).parser.bodyLength = n := rfl

@[simp] theorem stage_headerKey :
    (stage l hs n st key val body).parser.headerKey = key := rfl

@[simp] theorem stage_goto :
    (stage l hs n st key val body).goto st' = stage l hs n st' key val body := rfl

@[simp] theorem stage_pushKey :
    (stage l hs n st key val body).pushKey c = stage l hs n st (key ++ [c]) val body := rfl

@[simp] theorem stage_pushVal :
    (stage l hs n st key val body).pushVal c = stage l hs n st key (val ++ [c]) body := rfl

@[simp] theorem stage_pushBody :
    (stage l hs n st key val body).pushBody c =
      stage l hs (n - 1) st key val (body ++ [c]) := rfl

@[simp] theorem stage_clearHeader :
    (stage l hs n st key val body).clearHeader = stage l hs n st [] [] body := rfl

@[simp] theorem lineStart_state : (lineStart l hs st).parser.state = st := rfl

@[simp] theorem lineStart_goto : (lineStart l hs st).goto st' = lineStart l hs st' := rfl

theorem lineStart_concat (h : Header) :
    lineStart l (hs ++ [h]) st = stage l hs (lengthOf hs) st h.1 h.2 [] := by
  simp [lineStart]

end StageFields

theorem commitHeader_lineStart {hs : List Header} (l : RequestLine) (st : State)
    (lines : HeaderLines hs) (acc : LengthsAccepted hs) :
    ∃ key val, (lineStart l hs st).commitHeader = .ok (stage l hs (lengthOf hs) st key val []) ∧
      (key = [] → val = []) := by
  induction hs using List.reverseRecOn with
  | nil => exact ⟨[], [], rfl, fun _ => rfl⟩
  | append_singleton hs h _ =>
      have hkey : h.1 ≠ [] := (lines h (by simp)).1.1
      have accHs : LengthsAccepted hs := fun k hk => acc k (by simp [hk])
      have hk := declaredLength_eq acc
      rw [declaredLength_concat] at hk
      have grown : insertFirst ∅ (hs ++ [h]) = (insertFirst ∅ hs : Headers).insertIfNew h.1 h.2 :=
        insertFirst_append ∅ hs [h]
      refine ⟨h.1, h.2, ?_, fun h0 => absurd h0 hkey⟩
      have pending : (stage l hs (lengthOf hs) st h.1 h.2 []).parser.headerKey ≠ [] := hkey
      rw [lineStart_concat, Parsing.commitHeader, if_neg pending]
      by_cases hc : h.1 = contentLength
      · rw [if_pos hc] at hk
        simp [stage, hc, hk, grown]
      · rw [if_neg hc, declaredLength_eq accHs] at hk
        injection hk with hk
        simp [stage, hc, grown, hk]

/-! The run of the machine over each piece of a message. -/

private theorem feed_method {m : Bytes} (hm : IsTokenWord m) :
    feed machine .fresh m = .more (opening m [] [] .method) := by
  obtain ⟨c, m, rfl⟩ := List.exists_cons_of_ne_nil hm.1
  have first : machine .fresh c = .next (opening [c] [] [] .method) := by
    rw [machine_next_iff]
    simp [Parsing.fresh, RequestParser.reset, consume, hm.2 c (by simp)]
    rfl
  rw [feed_cons_next first]
  refine feed_collect (f := fun w => opening (c :: w) [] [] .method) m ?_
  rintro as b cs rfl
  have hb : isToken b = true := hm.2 b (by simp)
  rw [machine_next_iff]
  simp [consume, hb, isToken_ne hb (show isToken SP = false by decide)]

private theorem feed_uri {m u : Bytes} (hu : IsUri u) :
    feed machine (opening m [] [] .uri) u = .more (opening m u [] .uri) := by
  refine feed_collect (f := fun w => opening m w [] .uri) u ?_
  rintro as b cs rfl
  obtain ⟨hsp, hctl⟩ := hu b (by simp)
  rw [machine_next_iff]
  simp [consume, hsp, hctl]

private theorem feed_digits (first loop : State) {m u v w : Bytes} {c : UInt8} {r : Parsing}
    (hw : IsDigits w)
    (start : ∀ v b, isDigit b = true →
      machine (opening m u v first) b = .next (opening m u (v ++ [b]) loop))
    (go : ∀ v b, isDigit b = true →
      machine (opening m u v loop) b = .next (opening m u (v ++ [b]) loop))
    (stop : machine (opening m u (v ++ w) loop) c = .next r) :
    feed machine (opening m u v first) (w ++ [c]) = .more r := by
  obtain ⟨b, w, rfl⟩ := List.exists_cons_of_ne_nil hw.1
  have digits : feed machine (opening m u (v ++ [b]) loop) w =
      .more (opening m u (v ++ b :: w) loop) := by
    rw [show v ++ [b] = v ++ b :: [] from rfl]
    refine feed_collect (f := fun x => opening m u (v ++ b :: x) loop) w ?_
    rintro as d cs rfl
    simpa using go (v ++ b :: as) d (hw.2 d (by simp))
  rw [List.cons_append, feed_cons_next (start v b (hw.2 b (by simp))),
    feed_append_of_more digits, feed_cons_next stop, feed_nil]

theorem feed_requestLine (l : RequestLine) :
    feed machine .fresh (l.text ++ crlf) = .more (lineStart l [] .headerLineStart) := by
  have split : l.text ++ crlf = l.method ++ (SP :: (l.uri ++ (SP :: (lit "HTTP/" ++
      ((l.major ++ [DOT]) ++ ((l.minor ++ [CR]) ++ [LF])))))) := by
    simp [RequestLine.text, RequestLine.version, versionText]
  have space₁ : machine (opening l.method [] [] .method) SP =
      .next (opening l.method [] [] .uri) := rfl
  have space₂ : machine (opening l.method l.uri [] .uri) SP =
      .next (opening l.method l.uri [] .httpVersionH) := rfl
  have name : feed machine (opening l.method l.uri [] .httpVersionH) (lit "HTTP/") =
      .more (opening l.method l.uri (lit "HTTP/") .httpVersionMajorStart) := rfl
  have major : feed machine (opening l.method l.uri (lit "HTTP/") .httpVersionMajorStart)
      (l.major ++ [DOT]) = .more
        (opening l.method l.uri (lit "HTTP/" ++ l.major ++ [DOT]) .httpVersionMinorStart) := by
    apply feed_digits .httpVersionMajorStart .httpVersionMajor l.major_digits
    · intro v b hb
      simp [machine_next_iff, consume, expectDigit, hb]
    · intro v b hb
      simp [machine_next_iff, consume, hb, isDigit_ne hb (show isDigit DOT = false by decide)]
    · rfl
  have minor : feed machine
      (opening l.method l.uri (lit "HTTP/" ++ l.major ++ [DOT]) .httpVersionMinorStart)
      (l.minor ++ [CR]) = .more (opening l.method l.uri l.version .expectingNewline1) := by
    apply feed_digits .httpVersionMinorStart .httpVersionMinor l.minor_digits
    · intro v b hb
      simp [machine_next_iff, consume, expectDigit, hb]
    · intro v b hb
      simp [machine_next_iff, consume, hb, isDigit_ne hb (show isDigit CR = false by decide)]
    · simp [machine_next_iff, consume, RequestLine.version, versionText]
  have newline : machine (opening l.method l.uri l.version .expectingNewline1) LF =
      .next (lineStart l [] .headerLineStart) := rfl
  rw [split, feed_append_of_more (feed_method l.method_token), feed_cons_next space₁,
    feed_append_of_more (feed_uri l.uri_bytes), feed_cons_next space₂,
    feed_append_of_more name, feed_append_of_more major, feed_append_of_more minor,
    feed_cons_next newline, feed_nil]

theorem machine_nameStart {hs : List Header} {c : UInt8} (l : RequestLine)
    (lines : HeaderLines hs) (acc : LengthsAccepted hs) (hc : isToken c = true) :
    machine (lineStart l hs .headerLineStart) c =
      .next (stage l hs (lengthOf hs) .headerName [c] [] []) := by
  obtain ⟨key, val, commit, -⟩ := commitHeader_lineStart l .headerLineStart lines acc
  rw [machine_next_iff]
  simp [consume, hc, commit, isToken_ne hc (show isToken CR = false by decide),
    isToken_ne hc (show isToken SP = false by decide),
    isToken_ne hc (show isToken TAB = false by decide)]

theorem feed_headerLine {hs : List Header} {h : Header} (l : RequestLine)
    (lines : HeaderLines (hs ++ [h])) (acc : LengthsAccepted hs) :
    feed machine (lineStart l hs .headerLineStart) (headerLine h) =
      .more (lineStart l (hs ++ [h]) .headerLineStart) := by
  have linesHs : HeaderLines hs := fun k hk => lines k (by simp [hk])
  obtain ⟨name, value⟩ := h
  obtain ⟨⟨hne, htoken⟩, hvalue⟩ := lines (name, value) (by simp)
  obtain ⟨c, name, rfl⟩ := List.exists_cons_of_ne_nil hne
  have first := machine_nameStart l linesHs acc (htoken c (by simp))
  have nameRun : feed machine (stage l hs (lengthOf hs) .headerName [c] [] []) name =
      .more (stage l hs (lengthOf hs) .headerName (c :: name) [] []) := by
    refine feed_collect (f := fun w => stage l hs (lengthOf hs) .headerName (c :: w) [] []) name ?_
    rintro as b cs rfl
    have hb : isToken b = true := htoken b (by simp)
    rw [machine_next_iff]
    simp [consume, hb, isToken_ne hb (show isToken COLON = false by decide)]
  have valueRun : feed machine (stage l hs (lengthOf hs) .headerValue (c :: name) [] []) value =
      .more (stage l hs (lengthOf hs) .headerValue (c :: name) value []) := by
    refine feed_collect
      (f := fun w => stage l hs (lengthOf hs) .headerValue (c :: name) w []) value ?_
    rintro as b cs rfl
    have hb : isCtl b = false := hvalue b (by simp)
    rw [machine_next_iff]
    simp [consume, hb, isCtl_ne hb (show isCtl CR = true by decide)]
  have colon : machine (stage l hs (lengthOf hs) .headerName (c :: name) [] []) COLON =
      .next (stage l hs (lengthOf hs) .spaceBeforeHeaderValue (c :: name) [] []) := rfl
  have space : machine (stage l hs (lengthOf hs) .spaceBeforeHeaderValue (c :: name) [] []) SP =
      .next (stage l hs (lengthOf hs) .headerValue (c :: name) [] []) := rfl
  have lineEnd : feed machine (stage l hs (lengthOf hs) .headerValue (c :: name) value []) crlf =
      .more (stage l hs (lengthOf hs) .headerLineStart (c :: name) value []) := rfl
  rw [lineStart_concat, headerLine, List.cons_append, List.cons_append, List.append_assoc,
    feed_cons_next first, feed_append_of_more nameRun, List.cons_append, feed_cons_next colon,
    List.cons_append, feed_cons_next space, feed_append_of_more valueRun, lineEnd]

theorem feed_head {hs : List Header} (l : RequestLine) (lines : HeaderLines hs)
    (acc : LengthsAccepted hs) :
    feed machine .fresh (head l hs) = .more (lineStart l hs .headerLineStart) := by
  induction hs using List.reverseRecOn with
  | nil => simpa [head] using feed_requestLine l
  | append_singleton hs h ih =>
      have linesHs : HeaderLines hs := fun k hk => lines k (by simp [hk])
      have accHs : LengthsAccepted hs := fun k hk => acc k (by simp [hk])
      have split : head l (hs ++ [h]) = head l hs ++ headerLine h := by
        simp [head]
      rw [split, feed_append_of_more (ih linesHs accHs), feed_headerLine l lines accHs]

theorem consume_blankLine {hs : List Header} (l : RequestLine) (lines : HeaderLines hs)
    (acc : LengthsAccepted hs) :
    consume (lineStart l hs .expectingNewline3) LF =
      if lengthOf hs = 0 then good (stage l hs (lengthOf hs) .expectingNewline3 [] [] [])
      else indeterminate (stage l hs (lengthOf hs) .body [] [] []) := by
  obtain ⟨key, val, commit, hval⟩ := commitHeader_lineStart l .expectingNewline3 lines acc
  have cleared : (if (stage l hs (lengthOf hs) .expectingNewline3 key val []).parser.headerKey = []
        then stage l hs (lengthOf hs) .expectingNewline3 key val []
        else (stage l hs (lengthOf hs) .expectingNewline3 key val []).clearHeader) =
      stage l hs (lengthOf hs) .expectingNewline3 [] [] [] := by
    by_cases hkey : key = []
    · simp [hkey, hval hkey]
    · simp [hkey]
  simp only [consume, lineStart_state, commit, cleared]
  rfl

theorem consume_body {hs : List Header} (l : RequestLine) (n : Int) (b : Bytes) (c : UInt8) :
    consume (stage l hs n .body [] [] b) c =
      if n - 1 = 0 then good (stage l hs (n - 1) .body [] [] (b ++ [c]))
      else indeterminate (stage l hs (n - 1) .body [] [] (b ++ [c])) := rfl

private theorem feed_body {hs : List Header} (l : RequestLine) {b : Bytes} (hb : b ≠ []) :
    feed machine (stage l hs b.length .body [] [] []) b =
      .done .good (stage l hs 0 .body [] [] b) [] := by
  obtain ⟨b, c, rfl⟩ := (List.eq_nil_or_concat' b).resolve_left hb
  have collected : feed machine (stage l hs (b ++ [c]).length .body [] [] []) b =
      .more (stage l hs 1 .body [] [] b) := by
    have start : stage l hs (b ++ [c]).length .body [] [] [] =
        stage l hs ((b ++ [c]).length - ([] : Bytes).length : Int) .body [] [] [] := by simp
    have stop : stage l hs 1 .body [] [] b =
        stage l hs ((b ++ [c]).length - b.length : Int) .body [] [] b := by simp
    rw [start, stop]
    refine feed_collect
      (f := fun w => stage l hs ((b ++ [c]).length - w.length : Int) .body [] [] w) b ?_
    rintro as d cs rfl
    have counted : ((as ++ d :: cs ++ [c]).length - as.length : Int) - 1 =
        (as ++ d :: cs ++ [c]).length - (as ++ [d]).length := by
      simp only [List.length_append, List.length_cons, List.length_nil]
      omega
    have positive : ((as ++ d :: cs ++ [c]).length - (as ++ [d]).length : Int) ≠ 0 := by
      simp only [List.length_append, List.length_cons, List.length_nil]
      omega
    rw [machine_next_iff, consume_body, counted, if_neg positive]
  have last : machine (stage l hs 1 .body [] [] b) c =
      .stop .good (stage l hs 0 .body [] [] (b ++ [c])) := rfl
  rw [feed_append_of_more collected, feed_cons_stop last]

def Message.final (m : Message) : Parsing :=
  stage m.line m.headers 0 (if m.body = [] then .expectingNewline3 else .body) [] [] m.body

theorem Message.final_request (m : Message) : m.final.setMethod.request = m.request := rfl

theorem Message.lengthOf_headers (m : Message) : lengthOf m.headers = m.body.length := by
  simp only [lengthOf, m.body_declared]

theorem feed_encode (m : Message) : feed machine .fresh m.encode = .done .good m.final [] := by
  have carriage : machine (lineStart m.line m.headers .headerLineStart) CR =
      .next (lineStart m.line m.headers .expectingNewline3) := rfl
  have newline := consume_blankLine m.line m.header_lines m.lengths_accepted
  rw [m.lengthOf_headers] at newline
  have split : m.encode = head m.line m.headers ++ (CR :: LF :: m.body) := by
    simp [Message.encode]
  rw [split, feed_append_of_more (feed_head m.line m.header_lines m.lengths_accepted),
    feed_cons_next carriage]
  by_cases hb : m.body = []
  · have stop : machine (lineStart m.line m.headers .expectingNewline3) LF =
        .stop .good m.final := by
      rw [machine_stop_iff, newline]
      simp [hb, good, Message.final]
    rw [feed_cons_stop stop, hb]
  · have next : machine (lineStart m.line m.headers .expectingNewline3) LF =
        .next (stage m.line m.headers m.body.length .body [] [] []) := by
      rw [machine_next_iff, newline]
      simp [hb]
    rw [feed_cons_next next, feed_body m.line hb]
    simp [Message.final, hb]

end Wnza.Http.Grammar
