/- GID: Wnza/Http/Moves
   generality: I
   source: src/request_parser.cc
   digest: All that one byte can do to the parser. -/

import Wnza.Http.Parser

set_option autoImplicit false
set_option relaxedAutoImplicit false

namespace Wnza.Http.Moves

open Wnza.Http.Text
open Wnza.Http.Parser

/-- The bytes that only move the parser from one state to another. -/
inductive Edge : State → UInt8 → State → Prop
  | methodEnd : Edge .method SP .uri
  | uriEnd : Edge .uri SP .httpVersionH
  | versionEnd : Edge .httpVersionMinor CR .expectingNewline1
  | line1 : Edge .expectingNewline1 LF .headerLineStart
  | line2 : Edge .expectingNewline2 LF .headerLineStart
  | blankLine : Edge .headerLineStart CR .expectingNewline3
  | fold (c : UInt8) : Edge .headerLineStart c .headerLws
  | foldEnd : Edge .headerLws CR .expectingNewline2
  | nameEnd : Edge .headerName COLON .spaceBeforeHeaderValue
  | valueStart : Edge .spaceBeforeHeaderValue SP .headerValue
  | valueEnd : Edge .headerValue CR .expectingNewline2

/-- The bytes that are stored in the version. -/
inductive VersionEdge : State → UInt8 → State → Prop
  | h : VersionEdge .httpVersionH 'H'.toUInt8 .httpVersionT1
  | t1 : VersionEdge .httpVersionT1 'T'.toUInt8 .httpVersionT2
  | t2 : VersionEdge .httpVersionT2 'T'.toUInt8 .httpVersionP
  | p : VersionEdge .httpVersionP 'P'.toUInt8 .httpVersionSlash
  | slash : VersionEdge .httpVersionSlash SLASH .httpVersionMajorStart
  | majorStart {c : UInt8} (hc : isDigit c = true) :
      VersionEdge .httpVersionMajorStart c .httpVersionMajor
  | major {c : UInt8} (hc : isDigit c = true) : VersionEdge .httpVersionMajor c .httpVersionMajor
  | dot : VersionEdge .httpVersionMajor DOT .httpVersionMinorStart
  | minorStart {c : UInt8} (hc : isDigit c = true) :
      VersionEdge .httpVersionMinorStart c .httpVersionMinor
  | minor {c : UInt8} (hc : isDigit c = true) : VersionEdge .httpVersionMinor c .httpVersionMinor

/-- All that one byte can do to the parser when `consume` returns. -/
inductive Move (s : Parsing) (c : UInt8) : ResultType → Parsing → Prop
  | reject (hs : s.parser.state ≠ .body) : Move s c .bad s
  | goto {st : State} (edge : Edge s.parser.state c st) : Move s c .indeterminate (s.goto st)
  | skip (hs : s.parser.state = .headerLws) : Move s c .indeterminate s
  | method (hs : s.parser.state = .methodStart ∨ s.parser.state = .method)
      (hc : isToken c = true) : Move s c .indeterminate ((s.goto .method).pushMethod c)
  | uri (hs : s.parser.state = .uri) (hsp : c ≠ SP) (hc : isCtl c = false) :
      Move s c .indeterminate (s.pushUri c)
  | version {st : State} (edge : VersionEdge s.parser.state c st) :
      Move s c .indeterminate ((s.pushVersion c).goto st)
  | newKey {u : Parsing} (hs : s.parser.state = .headerLineStart) (hc : isToken c = true)
      (commit : s.commitHeader = .ok u) :
      Move s c .indeterminate ((u.clearHeader.pushKey c).goto .headerName)
  | key (hs : s.parser.state = .headerName) (hc : isToken c = true) :
      Move s c .indeterminate (s.pushKey c)
  | val (hs : s.parser.state = .headerLws ∨ s.parser.state = .headerValue)
      (hc : isCtl c = false) : Move s c .indeterminate ((s.goto .headerValue).pushVal c)
  | headEnd {u r : Parsing} (hs : s.parser.state = .expectingNewline3)
      (commit : s.commitHeader = .ok u) (hr : r = u ∨ r = u.clearHeader)
      (hlf : c = LF) (hzero : r.parser.bodyLength = 0) : Move s c .good r
  | bodyStart {u r : Parsing} (hs : s.parser.state = .expectingNewline3)
      (commit : s.commitHeader = .ok u) (hr : r = u ∨ r = u.clearHeader)
      (hlf : c = LF) (hzero : r.parser.bodyLength ≠ 0) : Move s c .indeterminate (r.goto .body)
  | badEnd {u r : Parsing} (hs : s.parser.state = .expectingNewline3)
      (commit : s.commitHeader = .ok u) (hr : r = u ∨ r = u.clearHeader)
      (hlf : c ≠ LF) : Move s c .bad r
  | body (hs : s.parser.state = .body) (hzero : (s.pushBody c).parser.bodyLength ≠ 0) :
      Move s c .indeterminate (s.pushBody c)
  | bodyEnd (hs : s.parser.state = .body) (hzero : (s.pushBody c).parser.bodyLength = 0) :
      Move s c .good (s.pushBody c)

section Moves

variable {s t : Parsing} {c : UInt8} {v : ResultType}

private theorem move_bad (hs : s.parser.state ≠ .body) (h : bad s = .ok (v, t)) :
    Move s c v t := by
  obtain ⟨rfl, rfl⟩ := bad_eq_ok.mp h
  exact .reject hs

private theorem move_goto {st : State} (edge : Edge s.parser.state c st)
    (h : indeterminate (s.goto st) = .ok (v, t)) : Move s c v t := by
  obtain ⟨rfl, rfl⟩ := indeterminate_eq_ok.mp h
  exact .goto edge

private theorem move_version {st : State} (edge : VersionEdge s.parser.state c st)
    (h : indeterminate ((s.pushVersion c).goto st) = .ok (v, t)) : Move s c v t := by
  obtain ⟨rfl, rfl⟩ := indeterminate_eq_ok.mp h
  exact .version edge

private theorem goto_self {st : State} (hs : s.parser.state = st) : s.goto st = s := by
  cases s
  subst hs
  rfl

theorem consume_move (h : consume s c = .ok (v, t)) : Move s c v t := by
  cases hs : s.parser.state with
  | methodStart =>
      simp only [consume, hs, Bool.not_eq_true'] at h
      split_ifs at h with ht
      · exact move_bad (by simp [hs]) h
      · obtain ⟨rfl, rfl⟩ := indeterminate_eq_ok.mp h
        exact .method (.inl hs) (by simpa using ht)
  | method =>
      simp only [consume, hs, Bool.not_eq_true'] at h
      split_ifs at h with hsp ht
      · exact move_goto (by rw [hs, hsp]; constructor) h
      · exact move_bad (by simp [hs]) h
      · obtain ⟨rfl, rfl⟩ := indeterminate_eq_ok.mp h
        have moved := Move.method (.inr hs) (show isToken c = true by simpa using ht)
        rwa [goto_self hs] at moved
  | uri =>
      simp only [consume, hs] at h
      split_ifs at h with hsp hctl
      · exact move_goto (by rw [hs, hsp]; constructor) h
      · exact move_bad (by simp [hs]) h
      · obtain ⟨rfl, rfl⟩ := indeterminate_eq_ok.mp h
        exact .uri hs hsp (by simpa using hctl)
  | httpVersionH | httpVersionT1 | httpVersionT2 | httpVersionP | httpVersionSlash =>
      simp only [consume, hs, expectVersion] at h
      split_ifs at h with heq
      · exact move_version (by rw [hs, heq]; constructor) h
      · exact move_bad (by simp [hs]) h
  | httpVersionMajorStart | httpVersionMinorStart =>
      simp only [consume, hs, expectDigit] at h
      split_ifs at h with hd
      · exact move_version (by rw [hs]; constructor; exact hd) h
      · exact move_bad (by simp [hs]) h
  | httpVersionMajor =>
      simp only [consume, hs] at h
      split_ifs at h with hdot hd
      · exact move_version (by rw [hs, hdot]; exact .dot) h
      · refine move_version (by rw [hs]; exact .major hd) ?_
        rwa [goto_self (show (s.pushVersion c).parser.state = _ from hs)]
      · exact move_bad (by simp [hs]) h
  | httpVersionMinor =>
      simp only [consume, hs] at h
      split_ifs at h with hcr hd
      · exact move_goto (by rw [hs, hcr]; constructor) h
      · refine move_version (by rw [hs]; exact .minor hd) ?_
        rwa [goto_self (show (s.pushVersion c).parser.state = _ from hs)]
      · exact move_bad (by simp [hs]) h
  | expectingNewline1 | expectingNewline2 =>
      simp only [consume, hs, expectNewline] at h
      split_ifs at h with hlf
      · exact move_goto (by rw [hs, hlf]; constructor) h
      · exact move_bad (by simp [hs]) h
  | headerLineStart =>
      simp only [consume, hs] at h
      split_ifs at h with hcr hlws ht
      · exact move_goto (by rw [hs, hcr]; constructor) h
      · exact move_goto (by rw [hs]; constructor) h
      · exact move_bad (by simp [hs]) h
      · cases hcommit : s.commitHeader with
        | error e => simp [hcommit] at h
        | ok u =>
            simp only [hcommit] at h
            obtain ⟨rfl, rfl⟩ := indeterminate_eq_ok.mp h
            exact .newKey hs (by simpa using ht) hcommit
  | headerLws =>
      simp only [consume, hs] at h
      split_ifs at h with hcr hblank hctl
      · exact move_goto (by rw [hs, hcr]; constructor) h
      · obtain ⟨rfl, rfl⟩ := indeterminate_eq_ok.mp h
        exact .skip hs
      · exact move_bad (by simp [hs]) h
      · obtain ⟨rfl, rfl⟩ := indeterminate_eq_ok.mp h
        exact .val (.inl hs) (by simpa using hctl)
  | headerName =>
      simp only [consume, hs, Bool.not_eq_true'] at h
      split_ifs at h with hcolon ht
      · exact move_goto (by rw [hs, hcolon]; constructor) h
      · exact move_bad (by simp [hs]) h
      · obtain ⟨rfl, rfl⟩ := indeterminate_eq_ok.mp h
        exact .key hs (by simpa using ht)
  | spaceBeforeHeaderValue =>
      simp only [consume, hs] at h
      split_ifs at h with hsp
      · exact move_goto (by rw [hs, hsp]; constructor) h
      · exact move_bad (by simp [hs]) h
  | headerValue =>
      simp only [consume, hs] at h
      split_ifs at h with hcr hctl
      · exact move_goto (by rw [hs, hcr]; constructor) h
      · exact move_bad (by simp [hs]) h
      · obtain ⟨rfl, rfl⟩ := indeterminate_eq_ok.mp h
        have moved := Move.val (.inr hs) (show isCtl c = false by simpa using hctl)
        rwa [goto_self hs] at moved
  | expectingNewline3 =>
      simp only [consume, hs] at h
      cases hcommit : s.commitHeader with
      | error e => simp [hcommit] at h
      | ok u =>
          have hr : (if u.parser.headerKey = [] then u else u.clearHeader) = u ∨
              (if u.parser.headerKey = [] then u else u.clearHeader) = u.clearHeader := by
            split
            · exact .inl rfl
            · exact .inr rfl
          simp only [hcommit] at h
          generalize (if u.parser.headerKey = [] then u else u.clearHeader) = r at h hr
          split_ifs at h with hlf hzero
          · obtain ⟨rfl, rfl⟩ := good_eq_ok.mp h
            exact .headEnd hs hcommit hr hlf hzero
          · obtain ⟨rfl, rfl⟩ := indeterminate_eq_ok.mp h
            exact .bodyStart hs hcommit hr hlf hzero
          · obtain ⟨rfl, rfl⟩ := bad_eq_ok.mp h
            exact .badEnd hs hcommit hr hlf
  | body =>
      simp only [consume, hs] at h
      split_ifs at h with hzero
      · obtain ⟨rfl, rfl⟩ := good_eq_ok.mp h
        exact .bodyEnd hs hzero
      · obtain ⟨rfl, rfl⟩ := indeterminate_eq_ok.mp h
        exact .body hs hzero

theorem Move.lineStart_inv (h : Move s c .indeterminate t)
    (hs : s.parser.state = .headerLineStart) :
    t = s.goto .expectingNewline3 ∨ t = s.goto .headerLws ∨
      ∃ u, s.commitHeader = .ok u ∧ t = (u.clearHeader.pushKey c).goto .headerName := by
  cases h with
  | goto edge =>
      rw [hs] at edge
      cases edge with
      | blankLine => exact .inl rfl
      | fold => exact .inr (.inl rfl)
  | version edge =>
      rw [hs] at edge
      cases edge
  | newKey _ _ commit => exact .inr (.inr ⟨_, commit, rfl⟩)
  | _ => simp_all

theorem Move.blankLine_inv (h : Move s c .indeterminate t)
    (hs : s.parser.state = .expectingNewline3) :
    ∃ u r, s.commitHeader = .ok u ∧ (r = u ∨ r = u.clearHeader) ∧ t = r.goto .body := by
  cases h with
  | bodyStart _ commit hr _ _ => exact ⟨_, _, commit, hr, rfl⟩
  | goto edge =>
      rw [hs] at edge
      cases edge
  | version edge =>
      rw [hs] at edge
      cases edge
  | _ => simp_all

end Moves

end Wnza.Http.Moves
