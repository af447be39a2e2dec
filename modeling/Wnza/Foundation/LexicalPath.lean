/- GID: Wnza/Foundation/LexicalPath
   generality: G
   digest: Paths as component lists, resolved without a file system. -/

import Mathlib.Data.List.Induction

set_option autoImplicit false
set_option relaxedAutoImplicit false

namespace Wnza.Foundation.LexicalPath

universe u

variable {α : Type u}

section Segments

variable [DecidableEq α]

private def flush : List α → List (List α)
  | [] => []
  | a :: as => [a :: as]

private def scan (sep : α) : List α → List α → List (List α)
  | current, [] => flush current
  | current, a :: as =>
      if a = sep then flush current ++ scan sep [] as else scan sep (current ++ [a]) as

/-- The pieces between separators that are not empty. -/
def segments (sep : α) (as : List α) : List (List α) := scan sep [] as

private theorem scan_append (sep : α) (current as bs : List α) :
    scan sep current (as ++ sep :: bs) = scan sep current as ++ scan sep [] bs := by
  induction as generalizing current with
  | nil => simp [scan]
  | cons a as ih =>
      by_cases ha : a = sep
      · simp [scan, ha, ih]
      · simp [scan, ha, ih]

theorem segments_append (sep : α) (as bs : List α) :
    segments sep (as ++ sep :: bs) = segments sep as ++ segments sep bs :=
  scan_append sep [] as bs

end Segments

inductive Component (α : Type u) where
  | up
  | name (a : α)
  deriving DecidableEq

/-- A resolved path: how far it climbs above the start of a relative path, and the names
below.  The root has no parent, so absolute paths do not climb. -/
structure Resolved (α : Type u) where
  absolute : Bool
  ups : Nat
  names : List α
  deriving DecidableEq

namespace Resolved

def enter (s : Resolved α) : Component α → Resolved α
  | .name a => { s with names := s.names ++ [a] }
  | .up =>
      if s.names.isEmpty then (if s.absolute then s else { s with ups := s.ups + 1 })
      else { s with names := s.names.dropLast }

def resolve (s : Resolved α) (cs : List (Component α)) : Resolved α := cs.foldl enter s

def relative (cs : List (Component α)) : Resolved α := resolve ⟨false, 0, []⟩ cs

/-- A place inside a directory, or the directory itself. -/
def Within (root path : Resolved α) : Prop :=
  path.absolute = root.absolute ∧ path.ups = root.ups ∧ root.names <+: path.names

theorem resolve_append (s : Resolved α) (cs ds : List (Component α)) :
    s.resolve (cs ++ ds) = (s.resolve cs).resolve ds :=
  List.foldl_append

theorem resolve_concat (s : Resolved α) (cs : List (Component α)) (c : Component α) :
    s.resolve (cs ++ [c]) = (s.resolve cs).enter c := by
  simp [resolve]

theorem relative_concat (cs : List (Component α)) (c : Component α) :
    relative (cs ++ [c]) = (relative cs).enter c :=
  resolve_concat _ cs c

theorem relative_absolute (cs : List (Component α)) : (relative cs).absolute = false := by
  induction cs using List.reverseRecOn with
  | nil => rfl
  | append_singleton cs c ih =>
      rw [relative_concat]
      cases c with
      | name a => exact ih
      | up =>
          rw [enter]
          split_ifs with hempty habs
          · exact ih
          · exact ih
          · exact ih

theorem resolve_eq (s : Resolved α) (cs : List (Component α)) :
    s.resolve cs =
      ⟨s.absolute,
        if s.absolute then s.ups else s.ups + ((relative cs).ups - s.names.length),
        s.names.take (s.names.length - (relative cs).ups) ++ (relative cs).names⟩ := by
  induction cs using List.reverseRecOn with
  | nil =>
      obtain ⟨absolute, ups, names⟩ := s
      cases absolute <;> simp [resolve, relative]
  | append_singleton cs c ih =>
      have flat := relative_absolute cs
      rw [resolve_concat, relative_concat, ih]
      obtain ⟨absolute, ups, names⟩ := s
      generalize relative cs = r at flat
      obtain ⟨flag, climbed, below⟩ := r
      obtain rfl : flag = false := flat
      cases c with
      | name a => simp [enter]
      | up =>
          cases below using List.reverseRecOn with
          | append_singleton below b _ => simp [enter]
          | nil =>
              by_cases above : names.length ≤ climbed
              · have top : names.length - climbed = 0 := by omega
                have top' : names.length - (climbed + 1) = 0 := by omega
                have one : climbed + 1 - names.length = climbed - names.length + 1 := by omega
                cases absolute <;> simp [enter, top, top', one, Nat.add_assoc]
              · have none : climbed - names.length = 0 := by omega
                have none' : climbed + 1 - names.length = 0 := by omega
                have left : names.take (names.length - climbed) ≠ [] := by
                  intro hnil
                  have zero := congrArg List.length hnil
                  rw [List.length_take, List.length_nil] at zero
                  omega
                have shorter : (names.take (names.length - climbed)).dropLast =
                    names.take (names.length - (climbed + 1)) := by
                  rw [List.dropLast_eq_take, List.take_take, List.length_take]
                  congr 1
                  omega
                simp [enter, left, shorter, none, none']

theorem within_resolve_iff (s : Resolved α) (cs : List (Component α)) :
    Within s (s.resolve cs) ↔
      (s.absolute = true ∨ (relative cs).ups ≤ s.names.length) ∧
        s.names.drop (s.names.length - (relative cs).ups) <+: (relative cs).names := by
  have names :
    s.names <+: s.names.take (s.names.length - (relative cs).ups) ++ (relative cs).names ↔
      s.names.drop (s.names.length - (relative cs).ups) <+: (relative cs).names := by
    conv_lhs => lhs; rw [← List.take_append_drop (s.names.length - (relative cs).ups) s.names]
    exact List.prefix_append_right_inj _
  have ups : (if s.absolute then s.ups else s.ups + ((relative cs).ups - s.names.length)) = s.ups ↔
      s.absolute = true ∨ (relative cs).ups ≤ s.names.length := by
    cases s.absolute with
    | true => simp
    | false =>
        simp only [Bool.false_eq_true, if_false, false_or]
        omega
  rw [resolve_eq, Within]
  simp only [true_and, names, ups]

end Resolved

end Wnza.Foundation.LexicalPath
