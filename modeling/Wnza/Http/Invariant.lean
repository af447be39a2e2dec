/- GID: Wnza/Http/Invariant
   generality: I
   source: src/request_parser.cc
   digest: What every byte leaves true of the parser, whatever the verdict on it. -/

import Wnza.Http.Grammar
import Wnza.Http.Moves

set_option autoImplicit false
set_option relaxedAutoImplicit false

namespace Wnza.Http.Invariant

open Wnza.Foundation.Feed
open Wnza.Http.Text
open Wnza.Http.Parser
open Wnza.Http.Grammar
open Wnza.Http.Moves

/-- The collected bytes have passed the character classes of their states, and the content
lengths in the map their conversion. -/
structure Clean (s : Parsing) : Prop where
  method : ∀ c ∈ s.parser.methodStr, isToken c = true
  uri : IsUri s.request.uri
  headers : HeaderLines s.request.headers.toList
  lengths : LengthsAccepted s.request.headers.toList
  key : ∀ c ∈ s.parser.headerKey, isToken c = true
  val : IsValue s.parser.headerVal

namespace Clean

variable {s : Parsing} {c : UInt8}

theorem fresh : Clean .fresh :=
  ⟨by simp [Parsing.fresh, RequestParser.reset], by simp [Parsing.fresh, Request.empty, IsUri],
    by simp [Parsing.fresh, Request.empty, HeaderLines],
    by simp [Parsing.fresh, Request.empty, LengthsAccepted],
    by simp [Parsing.fresh, RequestParser.reset],
    by simp [Parsing.fresh, RequestParser.reset, IsValue]⟩

private theorem goto (h : Clean s) (st : State) :
    Clean (s.goto st) := ⟨h.1, h.2, h.3, h.4, h.5, h.6⟩

private theorem pushMethod (h : Clean s) (hc : isToken c = true) : Clean (s.pushMethod c) :=
  ⟨forall_mem_concat h.method hc, h.2, h.3, h.4, h.5, h.6⟩

private theorem pushUri (h : Clean s) (hsp : c ≠ SP) (hc : isCtl c = false) : Clean (s.pushUri c) :=
  ⟨h.1, forall_mem_concat h.uri ⟨hsp, hc⟩, h.3, h.4, h.5, h.6⟩

private theorem pushVersion (h : Clean s) :
    Clean (s.pushVersion c) := ⟨h.1, h.2, h.3, h.4, h.5, h.6⟩

private theorem pushKey (h : Clean s) (hc : isToken c = true) : Clean (s.pushKey c) :=
  ⟨h.1, h.2, h.3, h.4, forall_mem_concat h.key hc, h.6⟩

private theorem pushVal (h : Clean s) (hc : isCtl c = false) : Clean (s.pushVal c) :=
  ⟨h.1, h.2, h.3, h.4, h.5, forall_mem_concat h.val hc⟩

private theorem pushBody (h : Clean s) : Clean (s.pushBody c) := ⟨h.1, h.2, h.3, h.4, h.5, h.6⟩

private theorem clearHeader (h : Clean s) : Clean s.clearHeader :=
  ⟨h.1, h.2, h.3, h.4, by simp [Parsing.clearHeader], by simp [Parsing.clearHeader, IsValue]⟩

theorem setMethod (h : Clean s) : Clean s.setMethod := ⟨h.1, h.2, h.3, h.4, h.5, h.6⟩

private theorem mem_insertIfNew {headers : Headers} {key val : Bytes} {h : Header}
    (hmem : h ∈ (headers.insertIfNew key val).toList) :
    h ∈ headers.toList ∨ h = (key, val) := by
  obtain ⟨k, v⟩ := h
  rw [Std.ExtTreeMap.mem_toList_iff_getElem?_eq_some, Std.ExtTreeMap.getElem?_insertIfNew] at hmem
  split_ifs at hmem with hnew
  · obtain rfl := Option.some.inj hmem
    obtain rfl := Std.LawfulEqCmp.eq_of_compare hnew.1
    exact .inr rfl
  · exact .inl (Std.ExtTreeMap.mem_toList_iff_getElem?_eq_some.mpr hmem)

private theorem commitHeader {t : Parsing} (h : Clean s) (ht : s.commitHeader = .ok t) :
    Clean t := by
  obtain ⟨-, rfl⟩ | ⟨hkey, n, rfl, hlength, -⟩ := Parsing.commitHeader_inv ht
  · exact h
  · refine ⟨h.1, h.2, ?_, ?_, h.5, h.6⟩
    · intro e he
      rcases mem_insertIfNew he with he | rfl
      · exact h.headers e he
      · exact ⟨⟨hkey, h.key⟩, h.val⟩
    · intro e he hc
      rcases mem_insertIfNew he with he | rfl
      · exact h.lengths e he hc
      · exact ⟨n, hlength hc⟩

private theorem ofEnd {u r : Parsing} (h : Clean s) (commit : s.commitHeader = .ok u)
    (hr : r = u ∨ r = u.clearHeader) : Clean r := by
  rcases hr with rfl | rfl
  · exact h.commitHeader commit
  · exact (h.commitHeader commit).clearHeader

theorem move {t : Parsing} {v : ResultType} (h : Clean s) (hm : Move s c v t) : Clean t := by
  cases hm with
  | reject _ => exact h
  | goto _ => exact h.goto _
  | skip _ => exact h
  | method _ hc => exact (h.goto _).pushMethod hc
  | uri _ hsp hc => exact h.pushUri hsp hc
  | version _ => exact h.pushVersion.goto _
  | newKey _ hc commit => exact ((h.commitHeader commit).clearHeader.pushKey hc).goto _
  | key _ hc => exact h.pushKey hc
  | val _ hc => exact (h.goto _).pushVal hc
  | headEnd _ commit hr _ _ => exact h.ofEnd commit hr
  | bodyStart _ commit hr _ _ => exact (h.ofEnd commit hr).goto _
  | badEnd _ commit hr _ => exact h.ofEnd commit hr
  | body _ _ => exact h.pushBody
  | bodyEnd _ _ => exact h.pushBody

private theorem feed_more {w : Bytes} {t : Parsing} (h : Clean s)
    (hw : feed machine s w = .more t) : Clean t :=
  feed_more_induction (P := fun _ u => Clean u) h
    (fun _ _ _ _ _ hu hb => hu.move (consume_move (machine_next_iff.mp hb))) hw

theorem feed_done {w rest : Bytes} {t : Parsing} {v : ResultType} (h : Clean s)
    (hw : feed machine s w = .done v t rest) : Clean t := by
  obtain ⟨as, b, u, -, ha, hb⟩ := feed_done_iff.mp hw
  exact (h.feed_more ha).move (consume_move (machine_stop_iff.mp hb).1)

end Clean

/-- The least number of bytes outside the body that a parser in this state reads before it
reports good. -/
def headBytes : State → Nat
  | .body => 0
  | .expectingNewline3 => 1
  | .headerLineStart => 2
  | .expectingNewline1 | .expectingNewline2 => 3
  | .headerLws | .headerValue | .httpVersionMinor => 4
  | .spaceBeforeHeaderValue | .httpVersionMinorStart => 5
  | .headerName | .httpVersionMajor => 6
  | .httpVersionMajorStart => 7
  | .httpVersionSlash => 8
  | .httpVersionP => 9
  | .httpVersionT2 => 10
  | .httpVersionT1 => 11
  | .httpVersionH => 12
  | .uri => 13
  | .method => 14
  | .methodStart => 15

theorem commitHeader_body {s t : Parsing} (h : s.commitHeader = .ok t) :
    t.request.body = s.request.body := by
  obtain ⟨-, rfl⟩ | ⟨-, n, rfl, -⟩ := Parsing.commitHeader_inv h <;> rfl

theorem commitEnd_body {s u r : Parsing} (commit : s.commitHeader = .ok u)
    (hr : r = u ∨ r = u.clearHeader) : r.request.body = s.request.body := by
  rcases hr with rfl | rfl
  · exact commitHeader_body commit
  · exact commitHeader_body (t := u) commit

private theorem headBytes_move {s t : Parsing} {c : UInt8} (h : Move s c .indeterminate t) :
    t.request.body.length + headBytes s.parser.state ≤
      s.request.body.length + headBytes t.parser.state + 1 := by
  cases h with
  | goto edge =>
      generalize s.parser.state = st at edge
      cases edge <;> simp [Parsing.goto, headBytes]
  | skip hs => omega
  | method hs hc =>
      rcases hs with hs | hs <;> simp [hs, Parsing.goto, Parsing.pushMethod, headBytes]
  | uri hs hsp hc => simp [hs, Parsing.pushUri]
  | version edge =>
      generalize s.parser.state = st at edge
      cases edge <;> simp [Parsing.goto, Parsing.pushVersion, headBytes]
  | @newKey u hs hc commit =>
      have body : u.request.body = s.request.body := commitHeader_body commit
      simp [hs, Parsing.goto, Parsing.pushKey, Parsing.clearHeader, headBytes, body]
  | key hs hc => simp [hs, Parsing.pushKey]
  | val hs hc => rcases hs with hs | hs <;> simp [hs, Parsing.goto, Parsing.pushVal, headBytes]
  | bodyStart hs commit hr hlf hzero =>
      simp [hs, Parsing.goto, headBytes, commitEnd_body commit hr]
  | body hs hzero => simp [hs, Parsing.pushBody, headBytes]

theorem headBytes_feed {s t : Parsing} {w : Bytes} (h : feed machine s w = .done .good t []) :
    t.request.body.length + headBytes s.parser.state ≤ s.request.body.length + w.length := by
  obtain ⟨as, b, u, rfl, ha, hb⟩ := feed_done_iff.mp h
  have run : u.request.body.length + headBytes s.parser.state ≤
      s.request.body.length + headBytes u.parser.state + as.length := by
    refine feed_more_induction (P := fun as u => u.request.body.length + headBytes s.parser.state ≤
      s.request.body.length + headBytes u.parser.state + as.length) (by simp) ?_ ha
    intro as b u v _ hu hb
    have step := headBytes_move (consume_move (machine_next_iff.mp hb))
    simp only [List.length_append, List.length_singleton]
    omega
  have last : t.request.body.length + headBytes u.parser.state ≤ u.request.body.length + 1 := by
    cases consume_move (machine_stop_iff.mp hb).1 with
    | headEnd hs commit hr hlf hzero => simp [hs, headBytes, commitEnd_body commit hr]
    | bodyEnd hs hzero => simp [hs, headBytes, Parsing.pushBody]
  simp only [List.length_append, List.length_singleton]
  omega

theorem feed_done_body {s t : Parsing} {w : Bytes} {v : ResultType}
    (hs : s.parser.state = .body) (h : feed machine s w = .done v t []) :
    t.request.body = s.request.body ++ w := by
  have stored : ∀ {u r : Parsing} {c : UInt8} {v : ResultType}, u.parser.state = .body →
      consume u c = .ok (v, r) → r = u.pushBody c := by
    intro u r c v hu hc
    simp only [consume, hu] at hc
    split_ifs at hc
    · exact (good_eq_ok.mp hc).2
    · exact (indeterminate_eq_ok.mp hc).2
  obtain ⟨as, b, u, rfl, ha, hb⟩ := feed_done_iff.mp h
  obtain ⟨hu, grown⟩ : u.parser.state = .body ∧ u.request.body = s.request.body ++ as := by
    refine feed_more_induction (P := fun as u => u.parser.state = .body ∧
      u.request.body = s.request.body ++ as) ⟨hs, by simp⟩ ?_ ha
    rintro as b u v _ ⟨hu, grown⟩ hb
    obtain rfl := stored hu (machine_next_iff.mp hb)
    exact ⟨hu, by simp [Parsing.pushBody, grown]⟩
  obtain rfl := stored hu (machine_stop_iff.mp hb).1
  simp [Parsing.pushBody, grown]

end Wnza.Http.Invariant
