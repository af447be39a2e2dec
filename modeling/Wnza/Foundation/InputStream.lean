/- GID: Wnza/Foundation/InputStream
   generality: G
   digest: A buffered input stream: formatted words, lines, and a buffer filled by segments. -/

import Mathlib.Data.List.Infix
import Mathlib.Data.List.TakeWhile

set_option autoImplicit false
set_option relaxedAutoImplicit false

namespace Wnza.Foundation.InputStream

universe u

variable {α : Type u}

/-- What can still be read from the buffer, and the end-of-file and failure bits. -/
structure Istream (α : Type u) where
  buffer : List α
  eof : Bool
  fail : Bool

namespace Istream

def of (buffer : List α) : Istream α := ⟨buffer, false, false⟩

def good (s : Istream α) : Bool := !s.eof && !s.fail

@[simp] theorem of_buffer (buffer : List α) : (of buffer).buffer = buffer := rfl

@[simp] theorem of_good (buffer : List α) : (of buffer).good = true := rfl

/-- Before a formatted extraction: blanks are skipped, and the extraction fails if nothing is
left or the stream is not good. -/
def sentry (blank : α → Bool) (s : Istream α) : Istream α :=
  if s.good then
    match s.buffer.dropWhile blank with
    | [] => ⟨[], true, true⟩
    | c :: rest => ⟨c :: rest, false, false⟩
  else { s with fail := true }

def word (blank : α → Bool) (s : Istream α) : List α × Istream α :=
  let s := s.sentry blank
  if s.good then
    let rest := s.buffer.dropWhile (fun c => !blank c)
    (s.buffer.takeWhile (fun c => !blank c), ⟨rest, rest.isEmpty, false⟩)
  else ([], s)

/-- What stands before the next line end, which is consumed; at the end of the buffer a line
may lack it, but not be empty. -/
def getline [DecidableEq α] (newline : α) (s : Istream α) : List α × Istream α :=
  if s.good then
    let line := s.buffer.takeWhile (· ≠ newline)
    match s.buffer.dropWhile (· ≠ newline) with
    | [] => (line, ⟨[], true, line.isEmpty⟩)
    | _ :: rest => (line, ⟨rest, false, false⟩)
  else ([], { s with fail := true })

def linesFrom [DecidableEq α] (newline : α) : List α → List α → List (List α × List α)
  | line, [] => if line = [] then [] else [(line, [])]
  | line, c :: rest =>
      if c = newline then (line, rest) :: linesFrom newline [] rest
      else linesFrom newline (line ++ [c]) rest

/-- The lines that successive calls of `getline` return until one fails. -/
def lines [DecidableEq α] (newline : α) (s : Istream α) : List (List α × List α) :=
  if s.good then linesFrom newline [] s.buffer else []

/-- What is left in the buffer when `getline` has failed. -/
def leftover (s : Istream α) : List α := if s.good then [] else s.buffer

end Istream

open Istream

def readUntil [DecidableEq α] (delimiter : List α) : List α → List (List α) → List α × List (List α)
  | buffer, [] => (buffer, [])
  | buffer, segment :: rest =>
      if delimiter <:+: buffer then (buffer, segment :: rest)
      else readUntil delimiter (buffer ++ segment) rest

section Lines

variable [DecidableEq α] {newline : α} {line rest : List α}

theorem linesFrom_append (hline : newline ∉ line) (start : List α) :
    linesFrom newline start (line ++ rest) = linesFrom newline (start ++ line) rest := by
  induction line generalizing start with
  | nil => simp
  | cons c line ih =>
      have hc : c ≠ newline := fun h => hline (by simp [h])
      rw [List.cons_append, linesFrom, if_neg hc, ih (fun h => hline (by simp [h])),
        List.append_assoc, List.singleton_append]

/-- A whole line is the first one, and the others follow. -/
theorem linesFrom_line (hline : newline ∉ line) :
    linesFrom newline [] (line ++ newline :: rest) =
      (line, rest) :: linesFrom newline [] rest := by
  rw [linesFrom_append hline, List.nil_append, linesFrom, if_pos rfl]

/-- Lines that are each ended by a line end are read back. -/
theorem map_linesFrom_flatMap {ls : List (List α)} (plain : ∀ l ∈ ls, newline ∉ l) :
    (linesFrom newline [] (ls.flatMap (fun l => l ++ [newline]))).map Prod.fst = ls := by
  induction ls with
  | nil => simp [linesFrom]
  | cons l ls ih =>
      obtain ⟨first, others⟩ := List.forall_mem_cons.mp plain
      rw [List.flatMap_cons, List.append_assoc, List.singleton_append, linesFrom_line first,
        List.map_cons, ih others]

/-- A buffer without a line end is one line, unless it is empty. -/
theorem linesFrom_last (hline : newline ∉ line) :
    linesFrom newline [] line = if line = [] then [] else [(line, [])] := by
  have all : linesFrom newline [] (line ++ []) = linesFrom newline ([] ++ line) [] :=
    linesFrom_append hline []
  rwa [List.append_nil, List.nil_append] at all

end Lines

section Extraction

variable {blank : α → Bool}

theorem takeWhile_append_stop {p : α → Bool} {w rest : List α} {c : α} (hw : ∀ d ∈ w, p d = true)
    (hc : p c = false) : (w ++ c :: rest).takeWhile p = w := by
  rw [List.takeWhile_append_of_pos hw, List.takeWhile_cons_of_neg (by simp [hc]), List.append_nil]

theorem dropWhile_append_stop {p : α → Bool} {w rest : List α} {c : α} (hw : ∀ d ∈ w, p d = true)
    (hc : p c = false) : (w ++ c :: rest).dropWhile p = c :: rest := by
  rw [List.dropWhile_append_of_pos hw, List.dropWhile_cons_of_neg (by simp [hc])]

/-- A list up to the first element with a property. -/
theorem exists_split (p : α → Bool) (w : List α) :
    ∃ s rest, w = s ++ rest ∧ (∀ d ∈ s, p d = false) ∧
      (rest = [] ∨ ∃ c x, rest = c :: x ∧ p c = true) := by
  induction w with
  | nil => exact ⟨[], [], rfl, by simp, .inl rfl⟩
  | cons c w ih =>
      by_cases hc : p c = true
      · exact ⟨[], c :: w, rfl, by simp, .inr ⟨c, w, rfl, hc⟩⟩
      · obtain ⟨s, rest, rfl, hs, hrest⟩ := ih
        refine ⟨c :: s, rest, rfl, fun d hd => ?_, hrest⟩
        rcases List.mem_cons.mp hd with rfl | hd
        · exact Bool.eq_false_iff.mpr hc
        · exact hs d hd

/-- Blanks before something else are skipped. -/
theorem sentry_of {blanks rest : List α} {c : α} (hblanks : ∀ d ∈ blanks, blank d = true)
    (hc : blank c = false) :
    (Istream.of (blanks ++ c :: rest)).sentry blank = .of (c :: rest) := by
  simp only [sentry, of_good, of_buffer, if_true, dropWhile_append_stop hblanks hc]
  rfl

/-- A word that a blank ends. -/
theorem word_of {w rest : List α} {b : α} (hw : ∀ d ∈ w, blank d = false) (hne : w ≠ [])
    (hb : blank b = true) :
    (Istream.of (w ++ b :: rest)).word blank = (w, .of (b :: rest)) := by
  obtain ⟨c, w', rfl⟩ := List.exists_cons_of_ne_nil hne
  have start : (Istream.of (c :: w' ++ b :: rest)).sentry blank =
      .of (c :: w' ++ b :: rest) :=
    sentry_of (fun _ hd => absurd hd List.not_mem_nil) (hw c List.mem_cons_self)
  have run : ∀ d ∈ c :: w', (!blank d) = true := fun d hd => by rw [hw d hd]; rfl
  have stop : (!blank b) = false := by rw [hb]; rfl
  simp only [word, start, of_good, of_buffer, if_true, takeWhile_append_stop run stop,
    dropWhile_append_stop run stop]
  rfl

/-- A line with its end. -/
theorem getline_of [DecidableEq α] {newline : α} {line rest : List α} (hline : newline ∉ line) :
    (Istream.of (line ++ newline :: rest)).getline newline = (line, .of rest) := by
  have run : ∀ d ∈ line, decide (d ≠ newline) = true :=
    fun d hd => decide_eq_true (fun h => hline (h ▸ hd))
  have stop : decide (newline ≠ newline) = false := by simp
  simp only [getline, of_good, of_buffer, if_true, takeWhile_append_stop run stop,
    dropWhile_append_stop run stop]
  rfl

end Extraction

section Segments

variable [DecidableEq α] {delimiter : List α}

/-- No byte is lost, and the delimiter is in the buffer unless everything is. -/
theorem readUntil_spec (buffer : List α) (segments : List (List α)) :
    (readUntil delimiter buffer segments).1 ++ (readUntil delimiter buffer segments).2.flatten =
        buffer ++ segments.flatten ∧
      (delimiter <:+: (readUntil delimiter buffer segments).1 ∨
        (readUntil delimiter buffer segments).2 = []) := by
  induction segments generalizing buffer with
  | nil => exact ⟨by simp [readUntil], .inr rfl⟩
  | cons segment rest ih =>
      rw [readUntil]
      split_ifs with h
      · exact ⟨rfl, .inl h⟩
      · obtain ⟨bytes, found⟩ := ih (buffer ++ segment)
        exact ⟨by rw [bytes]; simp, found⟩

end Segments

end Wnza.Foundation.InputStream
