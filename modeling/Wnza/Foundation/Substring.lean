/- GID: Wnza/Foundation/Substring
   generality: G
   digest: Occurrences of one list in another, the first and the last one, and their replacement. -/

import Mathlib.Data.List.Infix

set_option autoImplicit false
set_option relaxedAutoImplicit false

namespace Wnza.Foundation.Substring

universe u

variable {α : Type u}

section Occurrences

/-- An occurrence is on one side of an element or goes across it. -/
theorem infix_append_cons_iff {c : α} {t a b : List α} :
    t <:+: a ++ c :: b ↔
      t <:+: a ∨ t <:+: b ∨ ∃ u v, t = u ++ c :: v ∧ u <:+ a ∧ v <+: b := by
  rw [List.infix_append_iff, List.infix_cons_iff]
  constructor
  · rintro (left | (here | right) | ⟨u, v, rfl, hu, hv⟩)
    · exact .inl left
    · rcases List.prefix_cons_iff.mp here with rfl | ⟨v, rfl, hv⟩
      · exact .inl List.nil_infix
      · exact .inr (.inr ⟨[], v, rfl, List.nil_suffix, hv⟩)
    · exact .inr (.inl right)
    · rcases List.prefix_cons_iff.mp hv with rfl | ⟨w, rfl, hw⟩
      · rw [List.append_nil]
        exact .inl hu.isInfix
      · exact .inr (.inr ⟨u, w, rfl, hu, hw⟩)
  · rintro (left | right | ⟨u, v, rfl, hu, hv⟩)
    · exact .inl left
    · exact .inr (.inl (.inr right))
    · exact .inr (.inr ⟨u, c :: v, rfl, hu, List.cons_prefix_cons.mpr ⟨rfl, hv⟩⟩)

/-- A list does not occur across an element that it does not contain. -/
theorem infix_append_cons {c : α} {t a b : List α} (hc : c ∉ t) :
    t <:+: a ++ c :: b ↔ t <:+: a ∨ t <:+: b := by
  rw [infix_append_cons_iff]
  constructor
  · rintro (left | right | ⟨u, v, rfl, -, -⟩)
    · exact .inl left
    · exact .inr right
    · exact absurd (by simp) hc
  · rintro (left | right)
    · exact .inl left
    · exact .inr (.inl right)

/-- A list that contains an element once does not occur across it unless its two parts meet
there. -/
theorem infix_append_cons_of_once {c : α} {u v a b : List α} (hu : c ∉ u) (hv : c ∉ v)
    (apart : ¬ u <:+ a) :
    u ++ c :: v <:+: a ++ c :: b ↔ u ++ c :: v <:+: a ∨ u ++ c :: v <:+: b := by
  rw [infix_append_cons_iff]
  constructor
  · rintro (left | right | ⟨x, y, split, hx, -⟩)
    · exact .inl left
    · exact .inr right
    · obtain ⟨rfl, -, -⟩ := (List.append_cons_inj_of_notMem hu hv).mp split
      exact absurd hx apart
  · rintro (left | right)
    · exact .inl left
    · exact .inr (.inl right)

/-- A list that begins with another element occurs behind this one only. -/
theorem infix_cons_of_ne {c d : α} {t s : List α} (h : c ≠ d) :
    c :: t <:+: d :: s ↔ c :: t <:+: s := by
  rw [List.infix_cons_iff]
  constructor
  · rintro (⟨r, hr⟩ | inside)
    · exact absurd (List.cons.inj hr).1 h
    · exact inside
  · exact .inr

/-- A list occurs behind elements that are different from its first one. -/
theorem infix_append_of_notMem {c : α} {t w s : List α} (hw : c ∉ w) :
    c :: t <:+: w ++ s ↔ c :: t <:+: s := by
  induction w with
  | nil => rfl
  | cons d w ih =>
      have hd : c ≠ d := fun h => hw (by simp [h])
      rw [List.cons_append, infix_cons_of_ne hd, ih (fun h => hw (by simp [h]))]

/-- A list occurs before elements that are different from its last one. -/
theorem concat_infix_append_of_notMem {c : α} {t w s : List α} (hw : c ∉ w) :
    t ++ [c] <:+: s ++ w ↔ t ++ [c] <:+: s := by
  have mirror : ∀ s, t ++ [c] <:+: s ↔ c :: t.reverse <:+: s.reverse := by
    intro s
    rw [← List.reverse_infix, List.reverse_append, List.reverse_singleton, List.singleton_append]
  rw [mirror, mirror, List.reverse_append, infix_append_of_notMem (by simpa using hw)]

end Occurrences

/-- The last number below a bound with a property. -/
theorem find?_reverse_range {p : Nat → Bool} {n i : Nat} :
    (List.range n).reverse.find? p = some i ↔
      i < n ∧ p i = true ∧ ∀ j, i < j → j < n → p j = false := by
  induction n with
  | zero => simp
  | succ n ih =>
      rw [List.range_succ, List.reverse_append, List.reverse_singleton, List.singleton_append]
      by_cases hn : p n = true
      · rw [List.find?_cons_of_pos hn]
        constructor
        · intro h
          obtain rfl := Option.some.inj h
          exact ⟨Nat.lt_succ_self n, hn, fun j hj hj' => by omega⟩
        · rintro ⟨bound, -, last⟩
          by_cases hi : i < n
          · rw [last n hi (Nat.lt_succ_self n)] at hn
            cases hn
          · rw [show i = n by omega]
      · rw [List.find?_cons_of_neg hn, ih]
        constructor
        · rintro ⟨bound, hi, last⟩
          refine ⟨by omega, hi, fun j hj hj' => ?_⟩
          by_cases same : j = n
          · rw [same]
            exact Bool.eq_false_iff.mpr hn
          · exact last j hj (by omega)
        · rintro ⟨bound, hi, last⟩
          have ne : i ≠ n := fun h => hn (h ▸ hi)
          exact ⟨by omega, hi, fun j hj hj' => last j hj (by omega)⟩

variable [DecidableEq α]

/-- Where the first occurrence of `t` begins. -/
def find (t : List α) : List α → Option Nat
  | [] => if t = [] then some 0 else none
  | c :: s => if t <+: c :: s then some 0 else (find t s).map (· + 1)

/-- Replace the occurrences of `t` from left to right, each search behind the last occurrence;
the first so many elements belong to an occurrence that is already replaced. -/
def replaceFrom (t r : List α) : Nat → List α → List α
  | _, [] => []
  | n + 1, _ :: s => replaceFrom t r n s
  | 0, c :: s =>
      if t <+: c :: s then r ++ replaceFrom t r (t.length - 1) s else c :: replaceFrom t r 0 s

def replaceAll (t r s : List α) : List α := replaceFrom t r 0 s

theorem find_eq_none_iff {t s : List α} : find t s = none ↔ ¬ t <:+: s := by
  induction s with
  | nil => simp [find]
  | cons c s ih =>
      rw [find, List.infix_cons_iff]
      by_cases here : t <+: c :: s
      · simp [here]
      · simp [here, ih]

/-- The first occurrence of a list is not preceded by another one. -/
theorem find_eq_some_iff {t s : List α} {i : Nat} :
    find t s = some i ↔ i ≤ s.length ∧ t <+: s.drop i ∧ ∀ j < i, ¬ t <+: s.drop j := by
  induction s generalizing i with
  | nil =>
      by_cases ht : t = []
      · simp only [find, if_pos ht, Option.some.injEq, List.length_nil, Nat.le_zero]
        constructor
        · rintro rfl
          exact ⟨rfl, by simp [ht], by simp⟩
        · intro h
          exact h.1.symm
      · simp [find, ht]
  | cons c s ih =>
      rw [find]
      by_cases here : t <+: c :: s
      · rw [if_pos here]
        constructor
        · intro h
          obtain rfl := Option.some.inj h
          exact ⟨Nat.zero_le _, here, by simp⟩
        · rintro ⟨-, -, first⟩
          cases i with
          | zero => rfl
          | succ i => exact absurd here (first 0 (Nat.succ_pos i))
      · rw [if_neg here]
        cases i with
        | zero => simp [here]
        | succ i =>
            simp only [Option.map_eq_some_iff, Nat.add_right_cancel_iff, exists_eq_right, ih,
              List.length_cons, Nat.add_le_add_iff_right, List.drop_succ_cons]
            refine and_congr_right (fun _ => and_congr_right (fun _ => ?_))
            constructor
            · intro first j hj
              cases j with
              | zero => exact here
              | succ j => exact first j (Nat.lt_of_succ_lt_succ hj)
            · intro first j hj
              exact first (j + 1) (Nat.succ_lt_succ hj)

/-- The first occurrence of one element. -/
theorem find_singleton {c : α} {w rest : List α} (hw : c ∉ w) :
    find [c] (w ++ c :: rest) = some w.length := by
  induction w with
  | nil => simp [find]
  | cons d w ih =>
      have hd : c ≠ d := fun h => hw (by simp [h])
      rw [List.cons_append, find, if_neg (by simp [hd]), ih (fun h => hw (by simp [h])),
        Option.map_some, List.length_cons]

/-- Behind elements that are different from the first one of the list. -/
theorem find_append_of_notMem {c : α} {t w s : List α} (hw : c ∉ w) :
    find (c :: t) (w ++ s) = (find (c :: t) s).map (· + w.length) := by
  induction w with
  | nil => simp
  | cons d w ih =>
      have hd : c ≠ d := fun h => hw (by simp [h])
      rw [List.cons_append, find, if_neg (by simp [List.cons_prefix_cons, hd]),
        ih (fun h => hw (by simp [h])), Option.map_map]
      rfl

/-- Behind a list without an occurrence and an element that none contains. -/
theorem find_append_cons {c : α} {t a s : List α} (hc : c ∉ t) (ha : ¬ t <:+: a) :
    find t (a ++ c :: s) = (find t s).map (· + (a.length + 1)) := by
  have apart : ∀ b, ¬ t <:+: b → ¬ t <+: b ++ c :: s := by
    intro b hb here
    have cut : b ++ [c] <+: b ++ c :: s := by
      rw [List.append_cons b c s]
      exact List.prefix_append _ _
    rcases List.prefix_or_prefix_of_prefix here cut with inside | across
    · rcases List.prefix_concat_iff.mp inside with rfl | inside
      · exact hc (by simp)
      · exact hb inside.isInfix
    · exact hc (across.subset (by simp))
  induction a with
  | nil =>
      have here : ¬ t <+: c :: s := apart [] ha
      rw [List.nil_append, find, if_neg here, List.length_nil, Nat.zero_add]
  | cons d a ih =>
      rw [List.cons_append, find, ← List.cons_append, if_neg (apart (d :: a) ha),
        ih (fun h => ha (List.infix_cons h)), Option.map_map]
      rfl

/-- What follows the first occurrence does not matter. -/
theorem find_append_of_some {t a b : List α} {i : Nat} (h : find t a = some i) :
    find t (a ++ b) = some i := by
  rw [find_eq_some_iff] at h ⊢
  obtain ⟨bound, here, first⟩ := h
  refine ⟨?_, ?_, ?_⟩
  · rw [List.length_append]
    omega
  · rw [List.drop_append_of_le_length bound]
    exact here.trans (List.prefix_append _ _)
  · intro j hj there
    rw [List.drop_append_of_le_length (by omega)] at there
    have fits : t.length ≤ (a.drop j).length := by
      have length := here.length_le
      rw [List.length_drop] at length ⊢
      omega
    exact first j hj (List.prefix_of_prefix_length_le there (List.prefix_append _ _) fits)

end Wnza.Foundation.Substring
