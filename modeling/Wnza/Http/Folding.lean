/- GID: Wnza/Http/Folding
   generality: I
   source: src/request_parser.cc
   digest: Requests with continuation lines, and the parser on all of them. -/

import Wnza.Http.Counter
import Wnza.Http.Recognition

set_option autoImplicit false
set_option relaxedAutoImplicit false

namespace Wnza.Http.Folding

open Wnza.Foundation.Feed
open Wnza.Foundation.FirstInsert
open Wnza.Http.Text
open Wnza.Http.Parser
open Wnza.Http.Grammar
open Wnza.Http.Moves
open Wnza.Http.Recognition

def isBlank (c : UInt8) : Prop := c = SP ∨ c = TAB

instance : DecidablePred isBlank := fun _ => inferInstanceAs (Decidable (_ ∨ _))

/-- The blanks that begin a continuation line. -/
def IsBlanks (w : Bytes) : Prop := w ≠ [] ∧ ∀ c ∈ w, isBlank c

/-- What follows them up to the line end: no control byte, and no blank in front. -/
def IsFold (w : Bytes) : Prop := IsValue w ∧ w.head? ≠ some SP

def foldLine (blanks text : Bytes) : Bytes := blanks ++ text ++ crlf

/-- A head with continuation lines, and its header lines with their values joined.  The line
that follows the first header line is never read as a continuation of it. -/
inductive HeadText (l : RequestLine) : List Header → Bytes → Prop
  | requestLine : HeadText l [] (l.text ++ crlf)
  | header {hs : List Header} {x : Bytes} {h : Header} (before : HeadText l hs x)
      (name : IsTokenWord h.1) (value : IsValue h.2) : HeadText l (hs ++ [h]) (x ++ headerLine h)
  | fold {hs : List Header} {x : Bytes} {h : Header} {blanks text : Bytes}
      (before : HeadText l (hs ++ [h]) x) (second : hs ≠ []) (blank : IsBlanks blanks)
      (folded : IsFold text) :
      HeadText l (hs ++ [(h.1, h.2 ++ text)]) (x ++ foldLine blanks text)

private theorem HeadText.headerLines {l : RequestLine} {hs : List Header} {x : Bytes}
    (h : HeadText l hs x) : HeaderLines hs := by
  induction h with
  | requestLine => simp [HeaderLines]
  | header _ name value ih => exact forall_mem_concat ih ⟨name, value⟩
  | fold _ _ _ folded ih =>
      obtain ⟨others, last⟩ := List.forall_mem_append.mp ih
      obtain ⟨name, value⟩ := List.forall_mem_singleton.mp last
      exact forall_mem_concat others ⟨name, isValue_append.mpr ⟨value, folded.1⟩⟩

private theorem headText_head (l : RequestLine) {hs : List Header} (lines : HeaderLines hs) :
    HeadText l hs (head l hs) := by
  induction hs using List.reverseRecOn with
  | nil => simpa [head] using HeadText.requestLine
  | append_singleton hs h ih =>
      obtain ⟨others, last⟩ := List.forall_mem_append.mp lines
      obtain ⟨name, value⟩ := List.forall_mem_singleton.mp last
      have split : head l (hs ++ [h]) = head l hs ++ headerLine h := by simp [head]
      rw [split]
      exact .header (ih others) name value

section Runs

variable {l : RequestLine} {hs : List Header} {n : Int} {key val : Bytes}

private theorem machine_value (as : Bytes) (c : UInt8) (hc : isCtl c = false) :
    machine (stage l hs n .headerValue key as []) c =
      .next (stage l hs n .headerValue key (as ++ [c]) []) := by
  rw [machine_next_iff]
  simp [consume, hc, isCtl_ne hc (show isCtl CR = true by decide)]

private theorem machine_blank {c : UInt8} (hc : isBlank c) :
    machine (stage l hs n .headerLws key val []) c =
      .next (stage l hs n .headerLws key val []) := by
  rw [machine_next_iff]
  rcases hc with rfl | rfl <;> rfl

private theorem machine_foldStart {c : UInt8} (second : hs ≠ []) (hc : isBlank c) :
    machine (stage l hs n .headerLineStart key val []) c =
      .next (stage l hs n .headerLws key val []) := by
  have filled : (stage l hs n .headerLineStart key val []).request.headers.isEmpty = false := by
    obtain ⟨h, hs, rfl⟩ := List.exists_cons_of_ne_nil second
    exact isEmpty_insertFirst _
  have blank : c ≠ CR := by
    rcases hc with rfl | rfl <;> decide
  rw [machine_next_iff]
  simp only [consume, stage_state, filled, if_neg blank]
  rcases hc with rfl | rfl <;> rfl

private theorem machine_textStart {c : UInt8} (hc : isCtl c = false) (hsp : c ≠ SP) :
    machine (stage l hs n .headerLws key val []) c =
      .next (stage l hs n .headerValue key (val ++ [c]) []) := by
  rw [machine_next_iff]
  simp [consume, hc, hsp, isCtl_ne hc (show isCtl CR = true by decide),
    isCtl_ne hc (show isCtl TAB = true by decide)]

private theorem feed_value {v : Bytes} (hv : IsValue v) (as : Bytes) :
    feed machine (stage l hs n .headerValue key as []) v =
      .more (stage l hs n .headerValue key (as ++ v) []) := by
  have start :
    stage l hs n .headerValue key as [] = stage l hs n .headerValue key (as ++ []) [] := by
    rw [List.append_nil]
  rw [start]
  refine feed_collect (f := fun w => stage l hs n .headerValue key (as ++ w) []) v ?_
  rintro bs c cs rfl
  simpa using machine_value (as ++ bs) c (hv c (by simp))

private theorem feed_foldLine {blanks text : Bytes} (second : hs ≠ []) (blank : IsBlanks blanks)
    (folded : IsFold text) :
    feed machine (stage l hs n .headerLineStart key val []) (foldLine blanks text) =
      .more (stage l hs n .headerLineStart key (val ++ text) []) := by
  obtain ⟨hne, hblank⟩ := blank
  obtain ⟨b, blanks, rfl⟩ := List.exists_cons_of_ne_nil hne
  have first : machine (stage l hs n .headerLineStart key val []) b =
      .next (stage l hs n .headerLws key val []) := machine_foldStart second (hblank b (by simp))
  have skipped : feed machine (stage l hs n .headerLws key val []) blanks =
      .more (stage l hs n .headerLws key val []) := by
    refine feed_collect (f := fun _ => stage l hs n .headerLws key val []) blanks ?_
    rintro as c cs rfl
    exact machine_blank (hblank c (by simp))
  rw [foldLine, List.cons_append, List.cons_append, feed_cons_next first, List.append_assoc,
    feed_append_of_more skipped]
  cases text with
  | nil =>
      rw [List.append_nil]
      rfl
  | cons c text =>
      obtain ⟨hvalue, hhead⟩ := folded
      obtain ⟨hc, htext⟩ := List.forall_mem_cons.mp hvalue
      have hsp : c ≠ SP := fun h => hhead (by simp [h])
      have stored : feed machine (stage l hs n .headerValue key (val ++ [c]) []) text =
          .more (stage l hs n .headerValue key (val ++ [c] ++ text) []) := feed_value htext _
      rw [List.cons_append, feed_cons_next (machine_textStart hc hsp), feed_append_of_more stored,
        List.append_assoc]
      rfl

private theorem feed_headText {x : Bytes} (h : HeadText l hs x)
    (acc : LengthsAccepted hs.dropLast) :
    feed machine .fresh x = .more (lineStart l hs .headerLineStart) := by
  induction h with
  | requestLine => exact feed_requestLine l
  | @header hs x h before name value ih =>
      rw [List.dropLast_concat] at acc
      have accBefore : LengthsAccepted hs.dropLast :=
        fun k hk => acc k (List.mem_of_mem_dropLast hk)
      have lines : HeaderLines (hs ++ [h]) := forall_mem_concat before.headerLines ⟨name, value⟩
      rw [feed_append_of_more (ih accBefore), feed_headerLine l lines acc]
  | @fold hs x h blanks text before second blank folded ih =>
      rw [List.dropLast_concat] at acc ih
      rw [feed_append_of_more (ih acc), lineStart_concat, feed_foldLine second blank folded,
        lineStart_concat]

end Runs

/-- A complete request with continuation lines: the message that it is read as, with joined
values, and its head as it stands on the wire. -/
structure FoldedMessage where
  message : Message
  text : Bytes
  head_text : HeadText message.line message.headers text

def FoldedMessage.encode (m : FoldedMessage) : Bytes := m.text ++ crlf ++ m.message.body

private theorem feed_afterHead (m : Message) :
    feed machine (lineStart m.line m.headers .headerLineStart) (crlf ++ m.body) =
      .done .good m.final [] := by
  have run := feed_encode m
  rw [Message.encode, List.append_assoc,
    feed_append_of_more (feed_head m.line m.header_lines m.lengths_accepted)] at run
  exact run

private theorem feed_foldedEncode (m : FoldedMessage) :
    feed machine .fresh m.encode = .done .good m.message.final [] := by
  have acc : LengthsAccepted m.message.headers.dropLast :=
    fun k hk => m.message.lengths_accepted k (List.mem_of_mem_dropLast hk)
  rw [FoldedMessage.encode, List.append_assoc, feed_append_of_more (feed_headText m.head_text acc),
    feed_afterHead]

/-! What the bytes behind a state are, if the parser reports good on them. -/

section Inversions

variable {l : RequestLine} {hs : List Header} {n : Int} {key val w rest : Bytes} {s t : Parsing}

private theorem next_of_good {c : UInt8} (h : feed machine s (c :: w) = .done .good t rest)
    (hs : s.parser.state ≠ .expectingNewline3 ∧ s.parser.state ≠ .body) :
    ∃ u, consume s c = indeterminate u ∧ feed machine u w = .done .good t rest := by
  cases hc : machine s c with
  | next u =>
      rw [feed_cons_next hc] at h
      exact ⟨u, machine_next_iff.mp hc, h⟩
  | stop v u =>
      rw [feed_cons_stop hc] at h
      injection h with hv
      subst hv
      rcases state_of_consume_good (machine_stop_iff.mp hc).1 with hs' | hs'
      · exact absurd hs' hs.1
      · exact absurd hs' hs.2
  | fault e =>
      rw [feed_cons_fault hc] at h
      cases h

private theorem newline_inv
    (h : feed machine (stage l hs n .expectingNewline2 key val []) w = .done .good t rest) :
    ∃ w', w = LF :: w' ∧
      feed machine (stage l hs n .headerLineStart key val []) w' = .done .good t rest := by
  cases w with
  | nil => cases h
  | cons c w =>
      obtain ⟨u, hc, run⟩ := next_of_good h (by simp)
      simp only [consume, stage_state, expectNewline] at hc
      split_ifs at hc with hlf
      · obtain rfl := indeterminate_inj.mp hc
        exact ⟨w, by rw [hlf], run⟩
      · exact absurd hc bad_ne_indeterminate

private theorem value_inv
    (h : feed machine (stage l hs n .headerValue key val []) w = .done .good t rest) :
    ∃ v w', w = v ++ crlf ++ w' ∧ IsValue v ∧
      feed machine (stage l hs n .headerLineStart key (val ++ v) []) w' = .done .good t rest := by
  obtain ⟨v, c, w, rfl, hv, hc, run⟩ := feed_collect_inv
    (f := fun w => stage l hs n .headerValue key w []) (p := fun c => isCtl c = false)
    (fun as c hc => machine_value as c hc) val h
  obtain ⟨u, moved, run⟩ := next_of_good run (by simp)
  have ctl : isCtl c = true := by simpa using hc
  simp only [consume, stage_state, ctl] at moved
  split_ifs at moved with hcr
  · obtain rfl := indeterminate_inj.mp moved
    obtain ⟨w', rfl, run⟩ := newline_inv run
    exact ⟨v, w', by simp [hcr], hv, run⟩
  · exact absurd moved bad_ne_indeterminate

private theorem name_inv
    (h : feed machine (stage l hs n .headerName key [] []) w = .done .good t rest) :
    ∃ k v w', w = k ++ COLON :: SP :: v ++ crlf ++ w' ∧ (∀ c ∈ k, isToken c = true) ∧ IsValue v ∧
      feed machine (stage l hs n .headerLineStart (key ++ k) v []) w' = .done .good t rest := by
  obtain ⟨k, c, w, rfl, hk, hc, run⟩ := feed_collect_inv
    (f := fun w => stage l hs n .headerName w [] []) (p := fun c => isToken c = true)
    (by
      intro as c hc
      rw [machine_next_iff]
      simp [consume, hc, isToken_ne hc (show isToken COLON = false by decide)]) key h
  obtain ⟨u, moved, run⟩ := next_of_good run (by simp)
  have rejected : isToken c = false := by simpa using hc
  simp only [consume, stage_state, rejected, Bool.not_false, if_true] at moved
  split_ifs at moved with hcolon
  · obtain rfl := indeterminate_inj.mp moved
    cases w with
    | nil => cases run
    | cons d w =>
        obtain ⟨u, moved, run⟩ := next_of_good run (by simp)
        simp only [stage_goto, consume, stage_state] at moved
        split_ifs at moved with hsp
        · obtain rfl := indeterminate_inj.mp moved
          obtain ⟨v, w', rfl, hv, run⟩ := value_inv run
          exact ⟨k, v, w', by simp [hcolon, hsp], hk, hv, run⟩
        · exact absurd moved bad_ne_indeterminate
  · exact absurd moved bad_ne_indeterminate

private theorem lws_inv
    (h : feed machine (stage l hs n .headerLws key val []) w = .done .good t rest) :
    ∃ blanks v w', w = blanks ++ v ++ crlf ++ w' ∧ (∀ c ∈ blanks, isBlank c) ∧ IsFold v ∧
      feed machine (stage l hs n .headerLineStart key (val ++ v) []) w' = .done .good t rest := by
  obtain ⟨blanks, c, w, rfl, hblanks, hc, run⟩ := feed_collect_inv
    (f := fun _ => stage l hs n .headerLws key val []) (p := isBlank)
    (fun as c hc => machine_blank hc) [] h
  obtain ⟨u, moved, run⟩ := next_of_good run (by simp)
  obtain ⟨hsp, htab⟩ := not_or.mp hc
  simp only [consume, stage_state, hsp, htab, decide_false, Bool.or_self] at moved
  split_ifs at moved with hcr hfalse hctl
  · obtain rfl := indeterminate_inj.mp moved
    rw [stage_goto] at run
    obtain ⟨w', rfl, after⟩ := newline_inv run
    exact ⟨blanks, [], w', by simp [hcr], hblanks, by simp [IsFold, IsValue], by simpa using after⟩
  · cases hfalse
  · exact absurd moved bad_ne_indeterminate
  · obtain rfl := indeterminate_inj.mp moved
    rw [stage_goto, stage_pushVal] at run
    obtain ⟨v, w', rfl, hv, after⟩ := value_inv run
    have value : IsValue (c :: v) := List.forall_mem_cons.mpr ⟨by simpa using hctl, hv⟩
    refine ⟨blanks, c :: v, w', by simp, hblanks, ⟨value, by simpa using hsp⟩, ?_⟩
    simpa using after

private theorem body_inv {b : Bytes}
    (h : feed machine (stage l hs n .body [] [] b) w = .done .good t rest) :
    ∃ b', w = b' ++ rest ∧ (b'.length : Int) = n ∧ b' ≠ [] ∧
      t = stage l hs 0 .body [] [] (b ++ b') := by
  induction w generalizing n b with
  | nil => cases h
  | cons c w ih =>
      have step := @consume_body hs l n b c
      by_cases hzero : n - 1 = 0
      · rw [if_pos hzero] at step
        rw [feed_cons_stop (machine_stop_iff.mpr ⟨step, by simp⟩)] at h
        injection h with _ ht hrest
        subst ht hrest
        refine ⟨[c], rfl, ?_, by simp, by rw [hzero]⟩
        simp only [List.length_singleton]
        omega
      · rw [if_neg hzero] at step
        rw [feed_cons_next (machine_next_iff.mpr step)] at h
        obtain ⟨b', rfl, hlen, -, rfl⟩ := ih h
        refine ⟨c :: b', rfl, ?_, by simp, by simp⟩
        simp only [List.length_cons, Int.natCast_add, Int.natCast_one]
        omega

private theorem blankLine_inv (lines : HeaderLines hs) (acc : LengthsAccepted hs.dropLast)
    (h : feed machine (lineStart l hs .expectingNewline3) w = .done .good t rest) :
    ∃ m : Message, m.line = l ∧ m.headers = hs ∧ w = LF :: m.body ++ rest ∧ t = m.final := by
  cases w with
  | nil => cases h
  | cons c w =>
      cases hcommit : (lineStart l hs .expectingNewline3).commitHeader with
      | error e =>
          have fault : machine (lineStart l hs .expectingNewline3) c = .fault e := by
            rw [machine_fault_iff]
            simp [consume, hcommit]
          rw [feed_cons_fault fault] at h
          cases h
      | ok u =>
          have all : LengthsAccepted hs := accepted_of_commitHeader lines acc hcommit
          by_cases hlf : c = LF
          · subst hlf
            have step := consume_blankLine l lines all
            by_cases hzero : lengthOf hs = 0
            · rw [if_pos hzero] at step
              rw [feed_cons_stop (machine_stop_iff.mpr ⟨step, by simp⟩)] at h
              injection h with _ ht hrest
              subst ht hrest
              have declared : declaredLength hs = .ok ([] : Bytes).length := by
                rw [declaredLength_eq all, hzero]
                rfl
              refine ⟨⟨l, hs, [], lines, all, declared⟩, rfl, rfl, rfl, ?_⟩
              simp [Message.final, hzero]
            · rw [if_neg hzero] at step
              rw [feed_cons_next (machine_next_iff.mpr step)] at h
              obtain ⟨b, rfl, hlen, hne, rfl⟩ := body_inv h
              have declared : declaredLength hs = .ok b.length := by
                rw [declaredLength_eq all, hlen]
              refine ⟨⟨l, hs, b, lines, all, declared⟩, rfl, rfl, rfl, ?_⟩
              simp [Message.final, hne]
          · obtain ⟨r, step⟩ : ∃ r, consume (lineStart l hs .expectingNewline3) c = bad r :=
              ⟨_, by simp only [consume, lineStart_state, hcommit, if_neg hlf]; rfl⟩
            rw [feed_cons_stop (machine_stop_iff.mpr ⟨step, by simp⟩)] at h
            cases h

private theorem lineStart_inv (lines : HeaderLines hs) (acc : LengthsAccepted hs.dropLast)
    (h : feed machine (lineStart l hs .headerLineStart) w = .done .good t rest) :
    (∃ w', w = CR :: w' ∧
      feed machine (lineStart l hs .expectingNewline3) w' = .done .good t rest) ∨
    (∃ hs' k blanks v w', hs = hs' ++ [k] ∧ hs' ≠ [] ∧ IsBlanks blanks ∧ IsFold v ∧
      w = foldLine blanks v ++ w' ∧
      feed machine (lineStart l (hs' ++ [(k.1, k.2 ++ v)]) .headerLineStart) w' =
        .done .good t rest) ∨
    ∃ k w', LengthsAccepted hs ∧ IsTokenWord k.1 ∧ IsValue k.2 ∧ w = headerLine k ++ w' ∧
      feed machine (lineStart l (hs ++ [k]) .headerLineStart) w' = .done .good t rest := by
  cases w with
  | nil => cases h
  | cons c w =>
      obtain ⟨u, moved, run⟩ := next_of_good h (by simp)
      simp only [consume, lineStart_state] at moved
      split_ifs at moved with hcr hlws htoken
      · obtain rfl := indeterminate_inj.mp moved
        exact .inl ⟨w, by rw [hcr], run⟩
      · obtain rfl := indeterminate_inj.mp moved
        obtain ⟨filled, blank⟩ := Bool.and_eq_true_iff.mp hlws
        have hblank : isBlank c := by simpa [isBlank] using blank
        have ne : hs.dropLast ≠ [] := by
          intro hnil
          simp [lineStart, stage, hnil, insertFirst] at filled
        obtain ⟨hs', k, rfl⟩ := (List.eq_nil_or_concat' hs).resolve_left (by
          rintro rfl
          exact ne rfl)
        rw [List.dropLast_concat] at ne
        rw [lineStart_goto, lineStart_concat] at run
        obtain ⟨blanks, v, w', rfl, hblanks, hv, after⟩ := lws_inv run
        refine .inr (.inl ⟨hs', k, c :: blanks, v, w', rfl, ne, ⟨by simp, ?_⟩, hv, ?_, ?_⟩)
        · exact List.forall_mem_cons.mpr ⟨hblank, hblanks⟩
        · simp [foldLine]
        · rw [lineStart_concat]
          exact after
      · exact absurd moved bad_ne_indeterminate
      · have hc : isToken c = true := by simpa using htoken
        cases hcommit : (lineStart l hs .headerLineStart).commitHeader with
        | error e => simp [hcommit, indeterminate] at moved
        | ok r =>
            have all : LengthsAccepted hs := accepted_of_commitHeader lines acc hcommit
            have first := machine_nameStart l lines all hc
            rw [feed_cons_next first] at h
            obtain ⟨k, v, w', rfl, hk, hv, after⟩ := name_inv h
            have token : IsTokenWord (c :: k) := ⟨by simp, List.forall_mem_cons.mpr ⟨hc, hk⟩⟩
            refine .inr (.inr ⟨(c :: k, v), w', all, token, hv, by simp [headerLine], ?_⟩)
            rw [lineStart_concat]
            exact after

end Inversions

private theorem folded_of_lineStart {l : RequestLine} {hs : List Header} {x w rest : Bytes}
    {t : Parsing} (before : HeadText l hs x) (acc : LengthsAccepted hs.dropLast)
    (h : feed machine (lineStart l hs .headerLineStart) w = .done .good t rest) :
    ∃ m : FoldedMessage, x ++ w = m.encode ++ rest ∧ t = m.message.final := by
  -- on the bytes that are left
  induction hlen : w.length using Nat.strong_induction_on generalizing hs x w with
  | _ len ih =>
    subst hlen
    obtain ⟨w', rfl, run⟩ | ⟨hs', k, blanks, v, w', rfl, second, hblanks, hv, rfl, run⟩ |
      ⟨k, w', all, hk, hv, rfl, run⟩ := lineStart_inv before.headerLines acc h
    · obtain ⟨m, rfl, rfl, rfl, rfl⟩ := blankLine_inv before.headerLines acc run
      exact ⟨⟨m, x, before⟩, by simp [FoldedMessage.encode], rfl⟩
    · have shorter : w'.length < (foldLine blanks v ++ w').length := by
        simp only [foldLine, List.length_append, List.length_cons]
        omega
      obtain ⟨m, text, final⟩ := ih _ shorter (before.fold second hblanks hv)
        (by rw [List.dropLast_concat] at acc ⊢; exact acc) run rfl
      exact ⟨m, by rw [← text, List.append_assoc], final⟩
    · have shorter : w'.length < (headerLine k ++ w').length := by
        simp only [headerLine, List.length_append, List.length_cons]
        omega
      obtain ⟨m, text, final⟩ := ih _ shorter (before.header hk hv)
        (by rw [List.dropLast_concat]; exact all) run rfl
      exact ⟨m, by rw [← text, List.append_assoc], final⟩

def Opening : State → Prop
  | .headerLineStart | .headerLws | .headerName | .spaceBeforeHeaderValue | .headerValue
  | .expectingNewline2 | .expectingNewline3 | .body => False
  | _ => True

private theorem opening_move {s t : Parsing} {c : UInt8} (hm : Move s c .indeterminate t)
    (opened : Opening s.parser.state) :
    Opening t.parser.state ∨
      s.parser.state = .expectingNewline1 ∧ c = LF ∧ t = s.goto .headerLineStart := by
  cases hm with
  | goto edge =>
      generalize hst : s.parser.state = st at edge opened
      cases edge with
      | line1 => exact .inr ⟨rfl, rfl, rfl⟩
      | methodEnd | uriEnd | versionEnd => exact .inl trivial
      | _ => exact absurd opened id
  | version edge =>
      generalize s.parser.state = st at edge opened
      cases edge <;> exact .inl trivial
  | method _ _ => exact .inl trivial
  | uri _ _ _ => exact .inl opened
  | skip hs | newKey hs _ _ | key hs _ | bodyStart hs _ _ _ _ | body hs _ =>
      rw [hs] at opened
      exact absurd opened id
  | val hs _ =>
      rcases hs with hs | hs
      · rw [hs] at opened
        exact absurd opened id
      · rw [hs] at opened
        exact absurd opened id

private theorem Shape.newline1_inv {x : Bytes} {s : Parsing} (h : Shape x s)
    (hs : s.parser.state = .expectingNewline1) :
    ∃ l : RequestLine, x = l.text ++ [CR] ∧
      s.goto .headerLineStart = lineStart l [] .headerLineStart := by
  cases h with
  | newline1 l => exact ⟨l, rfl, rfl⟩
  | version hm hu hv => cases hv <;> cases hs
  | _ => cases hs

private theorem requestLine_of_feed {w : Bytes} {t : Parsing}
    (h : feed machine .fresh w = .more t) :
    (Shape w t ∧ Opening t.parser.state) ∨
      ∃ (l : RequestLine) (z : Bytes), w = l.text ++ crlf ++ z ∧
        feed machine (lineStart l [] .headerLineStart) z = .more t := by
  refine feed_more_induction (P := fun w t => (Shape w t ∧ Opening t.parser.state) ∨
    ∃ (l : RequestLine) (z : Bytes), w = l.text ++ crlf ++ z ∧
      feed machine (lineStart l [] .headerLineStart) z = .more t)
        (.inl ⟨.methodStart, trivial⟩) ?_ h
  rintro as b u v - (⟨shape, opened⟩ | ⟨l, z, rfl, run⟩) hb
  · rcases opening_move (consume_move (machine_next_iff.mp hb)) opened with inside | ⟨hs, rfl, rfl⟩
    · refine .inl ⟨shape.step ?_ hb, inside⟩
      intro hs
      rw [hs] at opened
      exact absurd opened id
    · obtain ⟨l, rfl, last⟩ := Shape.newline1_inv shape hs
      exact .inr ⟨l, [], by simp, by rw [last, feed_nil]⟩
  · refine .inr ⟨l, z ++ [b], by simp, ?_⟩
    rw [feed_append_of_more run, feed_cons_next hb, feed_nil]

private theorem folded_of_feed {w rest : Bytes} {t : Parsing}
    (h : feed machine .fresh w = .done .good t rest) :
    ∃ m : FoldedMessage, w = m.encode ++ rest ∧ t = m.message.final := by
  obtain ⟨as, b, u, rfl, ha, hb⟩ := feed_done_iff.mp h
  obtain ⟨-, opened⟩ | ⟨l, z, rfl, run⟩ := requestLine_of_feed ha
  · rcases state_of_consume_good (machine_stop_iff.mp hb).1 with hs | hs
    · rw [hs] at opened
      exact absurd opened id
    · rw [hs] at opened
      exact absurd opened id
  · have behind : feed machine (lineStart l [] .headerLineStart) (z ++ b :: rest) =
        .done .good t rest := by
      rw [feed_append_of_more run, feed_cons_stop hb]
    obtain ⟨m, text, final⟩ := folded_of_lineStart .requestLine (by simp [LengthsAccepted]) behind
    exact ⟨m, by rw [← text]; simp, final⟩

theorem parse_good_iff_folded (w : Bytes) (req : Request) :
    (∃ r, parse .fresh 0 w = .ok r ∧ r.result = .good ∧ r.parsing.request = req) ↔
      ∃ m : FoldedMessage, m.encode <+: w ∧ req = m.message.request := by
  constructor
  · rintro ⟨r, hr, hgood, rfl⟩
    obtain ⟨t, rest, run, -, hresult⟩ := parse_verdict_inv hr (by simp [hgood])
    rw [hgood] at run
    obtain ⟨m, rfl, rfl⟩ := folded_of_feed run
    refine ⟨m, List.prefix_append _ _, ?_⟩
    rw [hresult]
    rfl
  · rintro ⟨m, ⟨rest, rfl⟩, rfl⟩
    have run : feed machine .fresh (m.encode ++ rest) = .done .good m.message.final rest := by
      rw [feed_append, feed_foldedEncode, Outcome.resume, List.nil_append]
    refine ⟨_, parse_of_done run 0, ?_, rfl⟩
    simp [Message.final]

section Continuation

/-- The bytes of a message with a continuation line behind the header line `h`. -/
def continued (m : Message) (before : List Header) (h : Header) (after : List Header)
    (blanks text : Bytes) : Bytes :=
  head m.line (before ++ [h]) ++ foldLine blanks text ++ after.flatMap headerLine ++ crlf ++ m.body

/-- The parser accepts these bytes to the last one, with the value of `h` extended and the request
of the message otherwise. -/
def Continues (m : Message) (before : List Header) (h : Header) (after : List Header)
    (blanks text : Bytes) : Prop :=
  ∃ r, parse .fresh 0 (continued m before h after blanks text) = .ok r ∧ r.result = .good ∧
    r.begin = (continued m before h after blanks text).length ∧
    r.parsing.request =
      { m.request with headers := m.request.headers.insert h.1 (h.2 ++ text) }

variable {m : Message} {before after : List Header} {h : Header} {blanks text : Bytes}

private theorem HeadText.append {l : RequestLine} {hs ks : List Header} {x : Bytes}
    (hx : HeadText l hs x) (lines : HeaderLines ks) :
    HeadText l (hs ++ ks) (x ++ ks.flatMap headerLine) := by
  induction ks using List.reverseRecOn with
  | nil => simpa using hx
  | append_singleton ks k ih =>
      obtain ⟨others, last⟩ := List.forall_mem_append.mp lines
      obtain ⟨name, value⟩ := List.forall_mem_singleton.mp last
      have longer := (ih others).header name value
      simpa using longer

private theorem lengths_of_notMem {hs : List Header} (plain : contentLength ∉ hs.map Prod.fst) :
    LengthsAccepted hs ∧ declaredLength hs = .ok 0 := by
  have other : ∀ k ∈ hs, k.1 ≠ contentLength := by
    intro k hk name
    exact plain (name ▸ List.mem_map_of_mem hk)
  have none : hs.filter (fun k => k.1 = contentLength) = [] := by
    rw [List.filter_eq_nil_iff]
    intro k hk
    simpa using other k hk
  constructor
  · intro k hk name
    exact absurd name (other k hk)
  · simp [declaredLength, lastLength, none]

private theorem insertFirst_extended (distinct : ((before ++ h :: after).map Prod.fst).Nodup) :
    (insertFirst ∅ (before ++ (h.1, h.2 ++ text) :: after) : Headers) =
      (insertFirst ∅ (before ++ h :: after) : Headers).insert h.1 (h.2 ++ text) := by
  have apart : ∀ k ∈ before, k.1 ≠ h.1 := by
    intro k hk same
    rw [List.map_append, List.nodup_append] at distinct
    exact distinct.2.2 _ (List.mem_map_of_mem hk) _ (by simp) same
  have absent : before.find? (fun k => decide (k.1 = h.1)) = none := by
    rw [List.find?_eq_none]
    intro k hk
    simpa using apart k hk
  apply Std.ExtTreeMap.ext_getElem?
  intro name
  rw [Std.ExtTreeMap.getElem?_insert, getElem?_insertFirst, getElem?_insertFirst]
  simp only [Std.LawfulEqCmp.compare_eq_iff_eq, Std.ExtTreeMap.getElem?_empty, Option.none_or,
    firstValue, List.find?_append]
  by_cases same : h.1 = name
  · subst same
    simp [absent]
  · simp [same]

private theorem continues_of_second (distinct : (m.headers.map Prod.fst).Nodup)
    (plain : contentLength ∉ m.headers.map Prod.fst) (split : m.headers = before ++ h :: after)
    (blank : IsBlanks blanks) (folded : IsFold text) (second : before ≠ []) :
    Continues m before h after blanks text := by
  have lines := m.header_lines
  rw [split] at distinct plain lines
  obtain ⟨linesBefore, linesRest⟩ := List.forall_mem_append.mp lines
  obtain ⟨⟨name, value⟩, linesAfter⟩ := List.forall_mem_cons.mp linesRest
  have start : HeadText m.line (before ++ [h]) (head m.line (before ++ [h])) :=
    headText_head m.line (forall_mem_concat linesBefore ⟨name, value⟩)
  have whole := (start.fold second blank folded).append linesAfter
  rw [List.append_assoc, List.singleton_append] at whole
  have plain' : contentLength ∉ (before ++ (h.1, h.2 ++ text) :: after).map Prod.fst := by
    simpa using plain
  obtain ⟨accepted, zero⟩ := lengths_of_notMem plain'
  have empty : declaredLength (before ++ (h.1, h.2 ++ text) :: after) = .ok m.body.length := by
    have declared := m.body_declared
    rw [split, (lengths_of_notMem plain).2] at declared
    rw [zero, declared]
  let joined : Message :=
    ⟨m.line, before ++ (h.1, h.2 ++ text) :: after, m.body, whole.headerLines, accepted, empty⟩
  have run := feed_foldedEncode ⟨joined, _, whole⟩
  refine ⟨_, parse_of_done run 0, ?_, ?_, ?_⟩
  · simp [Message.final]
  · simp only [List.length_nil, Nat.sub_zero, Nat.zero_add]
    rfl
  · change { m.request with headers := insertFirst ∅ (before ++ (h.1, h.2 ++ text) :: after) } = _
    rw [insertFirst_extended distinct, ← split]
    rfl

private theorem not_continues_first (split : m.headers = [] ++ h :: after)
    (blank : IsBlanks blanks) :
    ¬ Continues m [] h after blanks text := by
  rintro ⟨r, hr, hgood, -⟩
  obtain ⟨hne, hblank⟩ := blank
  obtain ⟨b, blanks, rfl⟩ := List.exists_cons_of_ne_nil hne
  have lines : HeaderLines [h] := by
    intro k hk
    obtain rfl := List.mem_singleton.mp hk
    exact m.header_lines k (by simp [split])
  have read := feed_headText (headText_head m.line lines) (by simp [LengthsAccepted])
  have rejected : machine (lineStart m.line [h] .headerLineStart) b =
      .stop .bad (lineStart m.line [h] .headerLineStart) := by
    rw [machine_stop_iff]
    rcases hblank b (by simp) with rfl | rfl
    · exact ⟨rfl, by simp⟩
    · exact ⟨rfl, by simp⟩
  obtain ⟨rest, text_eq⟩ : ∃ rest, continued m [] h after (b :: blanks) text =
      head m.line [h] ++ b :: rest := ⟨_, by simp [continued, foldLine]; rfl⟩
  have run : feed machine .fresh (continued m [] h after (b :: blanks) text) =
      .done .bad (lineStart m.line [h] .headerLineStart) rest := by
    rw [text_eq, feed_append_of_more read, feed_cons_stop rejected]
  obtain ⟨t, rest', good, -⟩ := parse_verdict_inv hr (by simp [hgood])
  rw [run, hgood] at good
  cases good

/-- A continuation line works exactly behind the second and the later header lines. -/
theorem continues_iff (m : Message) (distinct : (m.headers.map Prod.fst).Nodup)
    (plain : contentLength ∉ m.headers.map Prod.fst) (before : List Header) (h : Header)
    (after : List Header) (split : m.headers = before ++ h :: after) (blanks text : Bytes)
    (blank : IsBlanks blanks) (folded : IsFold text) :
    Continues m before h after blanks text ↔ before ≠ [] := by
  constructor
  · rintro continues rfl
    exact not_continues_first split blank continues
  · exact continues_of_second distinct plain split blank folded

private theorem isBlanks_space : IsBlanks (lit " ") :=
  ⟨by decide, forall_mem_of_all (by decide)⟩

private theorem isFold_z : IsFold (lit "z") := ⟨by decide, by decide⟩

/-- The second of two header lines is continued. -/
theorem continues_second :
    ∃ m : Message, m.encode = lit "GET / HTTP/1.1\r\nA: x\r\nB: y\r\n\r\n" ∧
      Continues m [(lit "A", lit "x")] (lit "B", lit "y") [] (lit " ") (lit "z") := by
  let m : Message :=
    ⟨⟨lit "GET", lit "/", lit "1", lit "1", by decide, by decide, by decide, by decide⟩,
      [(lit "A", lit "x"), (lit "B", lit "y")], [], forall_mem_of_all (by decide),
      (lengths_of_notMem (by decide)).1, (lengths_of_notMem (by decide)).2⟩
  refine ⟨m, by decide, ?_⟩
  apply (continues_iff m (by decide) (by decide) _ _ _ rfl _ _ isBlanks_space isFold_z).mpr
  decide

/-- A single header line is not: the request is rejected. -/
theorem first_not_continued :
    (parse .fresh 0 (lit "GET / HTTP/1.1\r\nA: x\r\n z\r\n\r\n")).map ParseResult.result =
        .ok .bad ∧
      ∃ m : Message, m.encode = lit "GET / HTTP/1.1\r\nA: x\r\n\r\n" ∧
        (m.headers.map Prod.fst).Nodup ∧ contentLength ∉ m.headers.map Prod.fst ∧
        m.headers = [] ++ (lit "A", lit "x") :: [] ∧ IsBlanks (lit " ") ∧ IsFold (lit "z") ∧
        continued m [] (lit "A", lit "x") [] (lit " ") (lit "z") =
          lit "GET / HTTP/1.1\r\nA: x\r\n z\r\n\r\n" ∧
        ¬ Continues m [] (lit "A", lit "x") [] (lit " ") (lit "z") := by
  let m : Message :=
    ⟨⟨lit "GET", lit "/", lit "1", lit "1", by decide, by decide, by decide, by decide⟩,
      [(lit "A", lit "x")], [], forall_mem_of_all (by decide),
      (lengths_of_notMem (by decide)).1, (lengths_of_notMem (by decide)).2⟩
  have bad : (parse .fresh 0 (lit "GET / HTTP/1.1\r\nA: x\r\n z\r\n\r\n")).map
      ParseResult.result = .ok .bad := by decide
  have text : continued m [] (lit "A", lit "x") [] (lit " ") (lit "z") =
      lit "GET / HTTP/1.1\r\nA: x\r\n z\r\n\r\n" := by decide
  refine ⟨bad, m, by decide, by decide, by decide, rfl, isBlanks_space, isFold_z, text, ?_⟩
  rintro ⟨r, hr, hgood, -⟩
  rw [text] at hr
  rw [hr] at bad
  rw [Except.map, hgood] at bad
  cases bad

end Continuation

end Wnza.Http.Folding
