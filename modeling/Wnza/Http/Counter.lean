/- GID: Wnza/Http/Counter
   generality: I
   source: src/request_parser.cc
   digest: The content length on its way into the counter, and the counter down to zero. -/

import Wnza.Http.Grammar
import Wnza.Http.Moves

set_option autoImplicit false
set_option relaxedAutoImplicit false

namespace Wnza.Http.Counter

open Wnza.Foundation.Feed
open Wnza.Http.Text
open Wnza.Http.Parser
open Wnza.Http.Grammar
open Wnza.Http.Moves

/-- The bytes on which the parser converts the content length it has collected: the first
byte of the next header line and any byte after the carriage return of the blank line. -/
def Converts (s : Parsing) (c : UInt8) : Prop :=
  s.parser.headerKey = contentLength ∧
    (s.parser.state = .headerLineStart ∧ isToken c = true ∨ s.parser.state = .expectingNewline3)

instance (s : Parsing) (c : UInt8) : Decidable (Converts s c) :=
  inferInstanceAs (Decidable (_ ∧ (_ ∧ _ ∨ _)))

private theorem commitHeader_error_iff {s : Parsing} {e : Fault} :
    s.commitHeader = .error e ↔
      s.parser.headerKey = contentLength ∧ stoi s.parser.headerVal = .error e := by
  have named : contentLength ≠ [] := by decide
  unfold Parsing.commitHeader
  by_cases hc : s.parser.headerKey = contentLength
  · have pending : s.parser.headerKey ≠ [] := by rwa [hc]
    rw [if_neg pending]
    simp only [true_and, hc]
    cases stoi s.parser.headerVal <;> simp
  · by_cases hkey : s.parser.headerKey = []
    · simp [hkey, named.symm]
    · simp [hkey, hc]

theorem consume_error_iff {s : Parsing} {c : UInt8} {e : Fault} :
    consume s c = .error e ↔ Converts s c ∧ stoi s.parser.headerVal = .error e := by
  have returned : ∀ {t : Parsing}, bad t ≠ .error e ∧ good t ≠ .error e ∧
      indeterminate t ≠ .error e := by
    intro t
    simp [bad, good, indeterminate]
  cases hs : s.parser.state with
  | headerLineStart =>
      simp only [consume, hs, Converts]
      have blank : isToken CR = false ∧ isToken SP = false ∧ isToken TAB = false := by decide
      split_ifs with hcr hlws ht
      · simp [returned, hcr, blank]
      · have hc : c = SP ∨ c = TAB := by simpa using (Bool.and_eq_true_iff.mp hlws).2
        rcases hc with rfl | rfl <;> simp [returned, blank]
      · simp_all
      · cases hcommit : s.commitHeader with
        | error f =>
            have inv := commitHeader_error_iff.mp hcommit
            simp_all
        | ok u =>
            have inv := (commitHeader_error_iff (s := s) (e := e)).not.mp (by simp [hcommit])
            simp_all
  | expectingNewline3 =>
      simp only [consume, hs, Converts]
      cases hcommit : s.commitHeader with
      | error f =>
          have inv := commitHeader_error_iff.mp hcommit
          simp_all
      | ok u =>
          have inv := (commitHeader_error_iff (s := s) (e := e)).not.mp (by simp [hcommit])
          simp only [or_true, and_true, reduceCtorEq, false_and]
          split_ifs <;> simp_all
  | _ =>
      simp only [consume, hs, expectVersion, expectDigit, expectNewline, Converts]
      split_ifs <;> simp [returned]

/-- The counter is not negative, and counts down while a body is read. -/
structure Counting (s : Parsing) : Prop where
  nonneg : 0 ≤ s.parser.bodyLength
  body : s.parser.state = .body → 0 < s.parser.bodyLength

/-- This byte does not make the parser take over a negative content length. -/
def KeepsNonneg (s : Parsing) (c : UInt8) : Prop :=
  Converts s c → ∀ n, stoi s.parser.headerVal = .ok n → 0 ≤ n

instance (s : Parsing) (c : UInt8) : Decidable (KeepsNonneg s c) :=
  match h : stoi s.parser.headerVal with
  | .error _ => isTrue (fun _ n hn => by simp [h] at hn)
  | .ok m => decidable_of_iff (Converts s c → 0 ≤ m) (by simp [KeepsNonneg, h])

namespace Counting

variable {s t : Parsing} {c : UInt8}

theorem fresh : Counting .fresh := ⟨le_refl 0, by simp [Parsing.fresh, RequestParser.reset]⟩

private theorem commitHeader (h : Counting s) (hc : s.commitHeader = .ok t)
    (keep : s.parser.headerKey = contentLength → ∀ n, stoi s.parser.headerVal = .ok n → 0 ≤ n) :
    0 ≤ t.parser.bodyLength := by
  obtain ⟨-, rfl⟩ | ⟨-, n, rfl, length, other⟩ := Parsing.commitHeader_inv hc
  · exact h.nonneg
  · by_cases hkey : s.parser.headerKey = contentLength
    · exact keep hkey n (length hkey)
    · rw [other hkey]
      exact h.nonneg

private theorem ofEnd {u r : Parsing} (h : Counting s) (hs : s.parser.state = .expectingNewline3)
    (keep : KeepsNonneg s c) (commit : s.commitHeader = .ok u)
    (hr : r = u ∨ r = u.clearHeader) : 0 ≤ r.parser.bodyLength := by
  have nonneg := h.commitHeader commit (fun hkey n hn => keep ⟨hkey, .inr hs⟩ n hn)
  rcases hr with rfl | rfl
  · exact nonneg
  · exact nonneg

theorem move (h : Counting s) (keep : KeepsNonneg s c) (hm : Move s c .indeterminate t) :
    Counting t := by
  cases hm with
  | goto edge =>
      refine ⟨h.nonneg, fun hst => ?_⟩
      obtain rfl : _ = State.body := hst
      generalize s.parser.state = st at edge
      cases edge
  | skip _ => exact h
  | method _ _ => exact ⟨h.nonneg, by simp [Parsing.goto, Parsing.pushMethod]⟩
  | uri hs _ _ => exact ⟨h.nonneg, by simp [Parsing.pushUri, hs]⟩
  | version edge =>
      refine ⟨h.nonneg, fun hst => ?_⟩
      obtain rfl : _ = State.body := hst
      generalize s.parser.state = st at edge
      cases edge
  | newKey hs hc commit =>
      have nonneg := h.commitHeader commit (fun hkey n hn => keep ⟨hkey, .inl ⟨hs, hc⟩⟩ n hn)
      exact ⟨nonneg, by simp [Parsing.goto]⟩
  | key hs _ => exact ⟨h.nonneg, by simp [Parsing.pushKey, hs]⟩
  | val _ _ => exact ⟨h.nonneg, by simp [Parsing.goto, Parsing.pushVal]⟩
  | bodyStart hs commit hr _ hzero =>
      have nonneg := h.ofEnd hs keep commit hr
      exact ⟨nonneg, fun _ => lt_of_le_of_ne nonneg (Ne.symm hzero)⟩
  | body hs hzero =>
      have positive := h.body hs
      simp only [Parsing.pushBody] at hzero
      constructor
      · simp only [Parsing.pushBody]
        omega
      · intro _
        simp only [Parsing.pushBody]
        omega

theorem nonneg_of_verdict {v : ResultType} (h : Counting s) (keep : KeepsNonneg s c)
    (hm : Move s c v t) (hv : v ≠ .indeterminate) : 0 ≤ t.parser.bodyLength := by
  cases hm with
  | reject _ => exact h.nonneg
  | headEnd hs commit hr _ _ => exact h.ofEnd hs keep commit hr
  | badEnd hs commit hr _ => exact h.ofEnd hs keep commit hr
  | bodyEnd _ hzero => exact le_of_eq hzero.symm
  | _ => exact absurd rfl hv

theorem feed_more {w : Bytes} (h : Counting s)
    (keep : ∀ call ∈ calls machine s w, KeepsNonneg call.1 call.2)
    (hw : feed machine s w = .more t) : Counting t :=
  feed_more_of_calls h
    (fun u b _ called hu hb =>
      hu.move (keep (u, b) called) (consume_move (machine_next_iff.mp hb))) hw

theorem feed_done {w rest : Bytes} {v : ResultType} (h : Counting s)
    (keep : ∀ call ∈ calls machine s w, KeepsNonneg call.1 call.2)
    (hw : feed machine s w = .done v t rest) : 0 ≤ t.parser.bodyLength := by
  obtain ⟨as, b, u, rfl, ha, hb⟩ := feed_done_iff.mp hw
  obtain ⟨consumed, hv⟩ := machine_stop_iff.mp hb
  have called :
    ∀ x d, (x, d) ∈ calls machine s as → (x, d) ∈ calls machine s (as ++ b :: rest) := by
    intro x d hx
    obtain ⟨p, q, rfl, hp⟩ := mem_calls_iff.mp hx
    exact mem_calls_iff.mpr ⟨p, q ++ b :: rest, by simp, hp⟩
  have hu : Counting u := h.feed_more (fun call hcall => keep call (called _ _ hcall)) ha
  exact hu.nonneg_of_verdict (keep (u, b) (mem_calls_iff.mpr ⟨as, rest, rfl, ha⟩))
    (consume_move consumed) hv

end Counting

/-! The counter while a message without negative content lengths is read. -/

def InLine (st : State) : Prop := st ≠ .headerLineStart ∧ st ≠ .expectingNewline3 ∧ st ≠ .body

private theorem move_inLine {s t : Parsing} {c : UInt8} (hm : Move s c .indeterminate t)
    (hs : InLine s.parser.state) (hc : c ≠ LF) :
    InLine t.parser.state ∧ t.parser.bodyLength = s.parser.bodyLength := by
  obtain ⟨notStart, notEnd, notBody⟩ := hs
  cases hm with
  | goto edge =>
      refine ⟨?_, rfl⟩
      generalize s.parser.state = st at edge notStart
      cases edge with
      | line1 => exact absurd rfl hc
      | line2 => exact absurd rfl hc
      | blankLine => exact absurd rfl notStart
      | fold => exact absurd rfl notStart
      | _ => simp [InLine, Parsing.goto]
  | skip hs => exact ⟨⟨notStart, notEnd, notBody⟩, rfl⟩
  | method _ _ => exact ⟨by simp [InLine, Parsing.goto, Parsing.pushMethod], rfl⟩
  | uri hs _ _ => exact ⟨by simp [InLine, Parsing.pushUri, hs], rfl⟩
  | version edge =>
      refine ⟨?_, rfl⟩
      generalize s.parser.state = st at edge
      cases edge <;> simp [InLine, Parsing.goto]
  | newKey hs _ _ => exact absurd hs notStart
  | key hs _ => exact ⟨by simp [InLine, Parsing.pushKey, hs], rfl⟩
  | val _ _ => exact ⟨by simp [InLine, Parsing.goto, Parsing.pushVal], rfl⟩
  | bodyStart hs _ _ _ _ => exact absurd hs notEnd
  | body hs _ => exact absurd hs notBody

abbrev NonnegThroughout (s : Parsing) (w : Bytes) : Prop :=
  Throughout machine (fun u => 0 ≤ u.parser.bodyLength) s w

private theorem nonnegThroughout_line {s t : Parsing} {w : Bytes} (hs : InLine s.parser.state)
    (hw : LF ∉ w) (nonneg : 0 ≤ s.parser.bodyLength)
    (hline : feed machine s (w ++ [LF]) = .more t) (nonneg' : 0 ≤ t.parser.bodyLength) :
    NonnegThroughout s (w ++ [LF]) := by
  intro as u pre hu
  rcases List.prefix_concat_iff.mp pre with rfl | ⟨bs, rfl⟩
  · rw [hline] at hu
    injection hu with hu
    rwa [← hu]
  · have kept : InLine u.parser.state ∧ u.parser.bodyLength = s.parser.bodyLength := by
      refine feed_more_induction (P := fun _ u => InLine u.parser.state ∧
        u.parser.bodyLength = s.parser.bodyLength) ⟨hs, rfl⟩ ?_ hu
      rintro cs b x y ⟨ds, hds⟩ ⟨hx, same⟩ hb
      have hb' : b ≠ LF := by
        rintro rfl
        exact hw (by simp [← hds])
      obtain ⟨hy, same'⟩ := move_inLine (consume_move (machine_next_iff.mp hb)) hx hb'
      exact ⟨hy, same'.trans same⟩
    rwa [kept.2]

def NonnegLengths (hs : List Header) : Prop :=
  ∀ h ∈ hs, h.1 = contentLength → ∀ n, stoi h.2 = .ok n → 0 ≤ n

private theorem lengthOf_nonneg {hs : List Header} (nonneg : NonnegLengths hs)
    (acc : LengthsAccepted hs) : 0 ≤ lengthOf hs := by
  induction hs using List.reverseRecOn with
  | nil => exact le_refl 0
  | append_singleton hs h ih =>
      have accHs : LengthsAccepted hs := fun k hk => acc k (by simp [hk])
      have declared := declaredLength_eq acc
      rw [declaredLength_concat] at declared
      by_cases hc : h.1 = contentLength
      · rw [if_pos hc] at declared
        exact nonneg h (by simp) hc _ declared
      · rw [if_neg hc, declaredLength_eq accHs] at declared
        injection declared with declared
        rw [← declared]
        exact ih (fun k hk => nonneg k (by simp [hk])) accHs

private theorem lengthOf_dropLast_nonneg {hs : List Header} (nonneg : NonnegLengths hs)
    (acc : LengthsAccepted hs) : 0 ≤ lengthOf hs.dropLast :=
  lengthOf_nonneg (fun k hk => nonneg k (List.mem_of_mem_dropLast hk))
    (fun k hk => acc k (List.mem_of_mem_dropLast hk))

private theorem nonnegThroughout_requestLine (l : RequestLine) :
    NonnegThroughout .fresh (l.text ++ crlf) := by
  have split : l.text ++ crlf = (l.text ++ [CR]) ++ [LF] := by simp [crlf]
  have run := feed_requestLine l
  rw [split] at run ⊢
  refine nonnegThroughout_line (by simp [InLine, Parsing.fresh, RequestParser.reset]) ?_
    (le_refl 0) run (le_refl 0)
  have cr : LF ≠ CR := by decide
  simp [l.ctl_not_mem_text (show isCtl LF = true by decide), cr]

private theorem nonnegThroughout_headerLine {hs : List Header} {h : Header} (l : RequestLine)
    (lines : HeaderLines (hs ++ [h])) (acc : LengthsAccepted hs) (nonneg : NonnegLengths hs) :
    NonnegThroughout (lineStart l hs .headerLineStart) (headerLine h) := by
  have run := feed_headerLine l lines acc
  have linesHs : HeaderLines hs := fun k hk => lines k (by simp [hk])
  obtain ⟨name, value⟩ := h
  obtain ⟨hname, hvalue⟩ := lines (name, value) (by simp)
  obtain ⟨c, name, rfl⟩ := List.exists_cons_of_ne_nil hname.1
  have first := machine_nameStart l linesHs acc (hname.2 c (by simp))
  have ctl : isCtl LF = true := by decide
  have inName : LF ∉ name := fun h => hname.ctl_not_mem ctl (by simp [h])
  have inValue : LF ∉ value := hvalue.ctl_not_mem ctl
  have others : LF ≠ COLON ∧ LF ≠ SP ∧ LF ≠ CR := by decide
  have split : headerLine (c :: name, value) =
      c :: ((name ++ COLON :: SP :: value ++ [CR]) ++ [LF]) := by
    simp [headerLine, crlf]
  have before : 0 ≤ lengthOf hs.dropLast := lengthOf_dropLast_nonneg nonneg acc
  have during : 0 ≤ lengthOf hs := lengthOf_nonneg nonneg acc
  rw [split] at run ⊢
  rw [feed_cons_next first] at run
  have line : NonnegThroughout (stage l hs (lengthOf hs) .headerName [c] [] [])
      ((name ++ COLON :: SP :: value ++ [CR]) ++ [LF]) := by
    refine nonnegThroughout_line (by simp [InLine]) ?_ during run ?_
    · simp [inName, inValue, others]
    · rw [lineStart_concat]
      exact during
  refine throughout_cons before ?_
  intro t ht
  rw [first] at ht
  injection ht with ht
  rwa [← ht]

private theorem nonnegThroughout_head {hs : List Header} (l : RequestLine) (lines : HeaderLines hs)
    (acc : LengthsAccepted hs) (nonneg : NonnegLengths hs) :
    NonnegThroughout .fresh (head l hs) := by
  induction hs using List.reverseRecOn with
  | nil => simpa [head] using nonnegThroughout_requestLine l
  | append_singleton hs h ih =>
      have linesHs : HeaderLines hs := fun k hk => lines k (by simp [hk])
      have accHs : LengthsAccepted hs := fun k hk => acc k (by simp [hk])
      have nonnegHs : NonnegLengths hs := fun k hk => nonneg k (by simp [hk])
      have split : head l (hs ++ [h]) = head l hs ++ headerLine h := by
        simp [head]
      rw [split]
      exact (ih linesHs accHs nonnegHs).append (feed_head l linesHs accHs)
        (nonnegThroughout_headerLine l lines accHs nonnegHs)

private theorem nonnegThroughout_body {hs : List Header} (l : RequestLine) (b : Bytes) :
    NonnegThroughout (stage l hs b.length .body [] [] []) b := by
  intro as u pre hu
  have counted : u = stage l hs (b.length - as.length : Int) .body [] [] as := by
    refine feed_more_induction
      (P := fun as u => u = stage l hs (b.length - as.length : Int) .body [] [] as) (by simp) ?_ hu
    rintro cs c x y - rfl hc
    rw [machine_next_iff, consume_body] at hc
    have less : ((cs ++ [c]).length : Int) = cs.length + 1 := by simp
    split_ifs at hc
    · simp at hc
    · rw [← indeterminate_inj.mp hc, less, sub_sub]
  have shorter := pre.length_le
  rw [counted, stage_bodyLength]
  omega

theorem nonnegThroughout_encode (m : Message) (nonneg : NonnegLengths m.headers) :
    NonnegThroughout .fresh m.encode := by
  have split : m.encode = head m.line m.headers ++ (CR :: LF :: m.body) := by
    simp [Message.encode]
  have before : 0 ≤ lengthOf m.headers.dropLast :=
    lengthOf_dropLast_nonneg nonneg m.lengths_accepted
  have newline := consume_blankLine m.line m.header_lines m.lengths_accepted
  rw [m.lengthOf_headers] at newline
  rw [split]
  refine (nonnegThroughout_head m.line m.header_lines m.lengths_accepted nonneg).append
    (feed_head m.line m.header_lines m.lengths_accepted) (throughout_cons before ?_)
  intro t ht
  have carriage : machine (lineStart m.line m.headers .headerLineStart) CR =
      .next (lineStart m.line m.headers .expectingNewline3) := rfl
  rw [carriage] at ht
  injection ht with ht
  subst ht
  refine throughout_cons before ?_
  intro t ht
  rw [machine_next_iff, newline] at ht
  split_ifs at ht
  · simp at ht
  · rw [← indeterminate_inj.mp ht]
    exact nonnegThroughout_body m.line m.body

end Wnza.Http.Counter
