/- GID: Wnza/Handler/Naming
   generality: I
   source: src/static_request_handler.cc
   digest: The file that a URI under the prefix names, against the one that is opened. -/

import Wnza.Foundation.Substring
import Wnza.Handler.Static

set_option autoImplicit false
set_option relaxedAutoImplicit false

namespace Wnza.Handler.Naming

open Wnza.Foundation.Substring
open Wnza.Http.Text
open Wnza.Http.Parser
open Wnza.Handler.Basic
open Wnza.Handler.Basic.Response
open Wnza.Handler.Static
open Wnza.Handler.Static.StaticRequestHandler

def answerWith (w : World) (path : Bytes) : Response :=
  match fileToBody w path (empty.setCode .OK) with
  | none => make404Error w empty
  | some res => makeDateServernameHeaders w res

/-- The URI of the location prefix and a rest is answered with the file of the root and the rest,
and no other static file is opened for it. -/
def NamesFile (h : StaticRequestHandler) (rest : Bytes) : Prop :=
  h.opens (h.prefixUri ++ rest) = some (h.root ++ rest) ∧
    ∀ (w : World) (req : Request), req.uri = h.prefixUri ++ rest →
      h.handleRequest w req = answerWith w (h.root ++ rest)

/-- The prefix occurs once more, maybe across its own end. -/
def Recurs (start rest : Bytes) : Prop :=
  ∃ before behind, before ≠ [] ∧ start ++ rest = before ++ start ++ behind

/-- A `size_t` converted to `int`. -/
def toInt (n : Nat) : Int := Int.bmod n 4294967296

/-- `get_file_name` with the position and the length in variables of type `int`, in which `npos`
is -1. -/
def getFileNameInt (h : StaticRequestHandler) (uri : Bytes) : Except Fault Bytes :=
  let i := toInt ((rfind uri h.prefixUri).getD 18446744073709551615)
  if i ≠ -1 then
    let pos := i + toInt h.prefixUri.length
    if pos < 0 ∨ (uri.length : Int) < pos then .error .outOfRange else .ok (uri.drop pos.toNat)
  else .ok []

private theorem rfind_eq_some_iff {s t : Bytes} {i : Nat} :
    rfind s t = some i ↔
      i ≤ s.length ∧ t <+: s.drop i ∧ ∀ j, i < j → j ≤ s.length → ¬ t <+: s.drop j := by
  rw [rfind, find?_reverse_range, Nat.lt_succ_iff]
  simp only [List.isPrefixOf_iff_prefix, Nat.lt_succ_iff, Bool.eq_false_iff, ne_eq]

private theorem exists_rfind (start rest : Bytes) : ∃ i, rfind (start ++ rest) start = some i := by
  cases found : rfind (start ++ rest) start with
  | some i => exact ⟨i, rfl⟩
  | none =>
      rw [rfind, List.find?_eq_none] at found
      have first := found 0 (by simp)
      simp at first

private theorem rfind_pos_iff {start rest : Bytes} {i : Nat}
    (found : rfind (start ++ rest) start = some i) :
    0 < i ↔ Recurs start rest := by
  obtain ⟨bound, ⟨behind, here⟩, last⟩ := rfind_eq_some_iff.mp found
  constructor
  · intro hi
    refine ⟨(start ++ rest).take i, behind, ?_, ?_⟩
    · intro none
      have := congrArg List.length none
      rw [List.length_take, List.length_nil] at this
      omega
    · rw [List.append_assoc, here, List.take_append_drop]
  · rintro ⟨before, behind, hbefore, again⟩
    have hlength : 0 < before.length := List.length_pos_iff.mpr hbefore
    by_contra hi
    refine last before.length (by omega) ?_ ?_
    · rw [again, List.append_assoc, List.length_append]
      omega
    · rw [again, List.append_assoc, List.drop_left]
      exact List.prefix_append start behind

private theorem length_getFileName {h : StaticRequestHandler} {rest : Bytes} {i : Nat}
    (found : rfind (h.prefixUri ++ rest) h.prefixUri = some i) :
    (h.getFileName (h.prefixUri ++ rest)).length = rest.length - i := by
  simp only [getFileName, found, List.length_drop, List.length_append]
  omega

private theorem getFileName_of_not_recurs {h : StaticRequestHandler} {rest : Bytes}
    (once : ¬ Recurs h.prefixUri rest) : h.getFileName (h.prefixUri ++ rest) = rest := by
  obtain ⟨i, found⟩ := exists_rfind h.prefixUri rest
  have first : i = 0 := by
    by_contra hi
    exact once ((rfind_pos_iff found).mp (Nat.pos_of_ne_zero hi))
  simp only [getFileName, found, first, Nat.zero_add, List.drop_left]

private theorem toInt_of_lt {n : Nat} (hn : n < 2147483648) : toInt n = n :=
  Int.bmod_eq_of_le (by omega) (by omega)

/-- Up to two gibibytes the variables of type `int` hold what is stored in them. -/
theorem getFileNameInt_eq (h : StaticRequestHandler) {uri : Bytes}
    (short : uri.length < 2147483648) : getFileNameInt h uri = .ok (h.getFileName uri) := by
  cases found : rfind uri h.prefixUri with
  | none =>
      have npos : toInt 18446744073709551615 = -1 := by decide
      simp only [getFileNameInt, getFileName, found, Option.getD_none, npos, ne_eq, not_true,
        if_false]
  | some i =>
      obtain ⟨bound, here, -⟩ := rfind_eq_some_iff.mp found
      have fits : i + h.prefixUri.length ≤ uri.length := by
        have := here.length_le
        rw [List.length_drop] at this
        omega
      have inside : ¬ ((i : Int) + h.prefixUri.length < 0 ∨
          (uri.length : Int) < i + h.prefixUri.length) := by omega
      have position : ((i : Int) + h.prefixUri.length).toNat = i + h.prefixUri.length := by omega
      have proper : (i : Int) ≠ -1 := by omega
      simp only [getFileNameInt, getFileName, found, Option.getD_some,
        toInt_of_lt (n := i) (by omega),
        toInt_of_lt (n := h.prefixUri.length) (by omega), if_pos proper, if_neg inside, position]

/-- The handler opens the file that a URI under its prefix names exactly if the prefix does not
occur in the URI again; such URIs are told apart by the paths they name. -/
theorem namesFile_iff (h : StaticRequestHandler) (rest : Bytes) (hrest : rest ≠ []) :
    (NamesFile h rest ↔ ¬ Recurs h.prefixUri rest) ∧
      ∀ rest', rest' ≠ [] → ¬ Recurs h.prefixUri rest → ¬ Recurs h.prefixUri rest' →
        h.prefixUri ++ rest ≠ h.prefixUri ++ rest' →
          h.opens (h.prefixUri ++ rest) ≠ h.opens (h.prefixUri ++ rest') := by
  have opened : ∀ {rest}, rest ≠ [] → ¬ Recurs h.prefixUri rest →
      h.opens (h.prefixUri ++ rest) = some (h.root ++ rest) := by
    intro rest hrest once
    rw [opens, getFileName_of_not_recurs once, if_neg hrest]
  refine ⟨⟨?_, ?_⟩, ?_⟩
  · rintro ⟨named, -⟩ recurs
    obtain ⟨i, found⟩ := exists_rfind h.prefixUri rest
    have hi := (rfind_pos_iff found).mpr recurs
    have short := length_getFileName found
    have long : 0 < rest.length := List.length_pos_iff.mpr hrest
    simp only [opens] at named
    split_ifs at named with hname
    rw [List.append_cancel_left (Option.some.inj named)] at short
    omega
  · intro once
    refine ⟨opened hrest once, fun w req huri => ?_⟩
    simp only [handleRequest, huri, getFileName_of_not_recurs once, if_neg hrest]
    rfl
  · intro rest' hrest' once once' different same
    rw [opened hrest once, opened hrest' once'] at same
    exact different (by rw [List.append_cancel_left (Option.some.inj same)])

theorem namesFile_plain : NamesFile ⟨lit "./static/", lit "/static/"⟩ (lit "a/b.txt") := by
  have found : rfind (lit "/static/" ++ lit "a/b.txt") (lit "/static/") = some 0 := by decide
  have once : ¬ Recurs (lit "/static/") (lit "a/b.txt") := by
    rw [← rfind_pos_iff found]
    exact Nat.lt_irrefl 0
  exact (namesFile_iff ⟨lit "./static/", lit "/static/"⟩ (lit "a/b.txt") (by decide)).1.mpr once

/-- Behind the prefix `/` only the last component of a path is left, and two URIs name one file. -/
theorem last_component_named :
    StaticRequestHandler.make staticBlock (lit "/") = .ok ⟨lit "./static/", lit "/"⟩ ∧
      StaticRequestHandler.opens ⟨lit "./static/", lit "/"⟩ (lit "/a/b.txt") =
        some (lit "./static/b.txt") ∧
      ¬ NamesFile ⟨lit "./static/", lit "/"⟩ (lit "a/b.txt") ∧
      StaticRequestHandler.opens ⟨lit "./static/", lit "/"⟩ (lit "/b.txt") =
        some (lit "./static/b.txt") := by
  refine ⟨rfl, by decide, ?_, by decide⟩
  rintro ⟨named, -⟩
  revert named
  decide

end Wnza.Handler.Naming
