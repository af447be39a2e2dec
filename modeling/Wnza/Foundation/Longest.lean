/- GID: Wnza/Foundation/Longest
   generality: G
   digest: The first longest element of a list, found by one scan. -/

import Mathlib.Data.List.Induction

set_option autoImplicit false
set_option relaxedAutoImplicit false

namespace Wnza.Foundation.Longest

universe u

variable {α : Type u} {len : α → Nat}

def keepLonger (len : α → Nat) : Option α → α → Option α
  | none, a => some a
  | some b, a => if len b < len a then some a else some b

def firstLongest (len : α → Nat) (as : List α) : Option α := as.foldl (keepLonger len) none

/-- In a list ordered by `r`, nothing comes before `b` that is as long, and nothing is
longer. -/
def Wins (len : α → Nat) (r : α → α → Prop) (b : α) (as : List α) : Prop :=
  b ∈ as ∧ ∀ a ∈ as, len a < len b ∨ len a = len b ∧ (a = b ∨ r b a)

theorem firstLongest_concat (as : List α) (a : α) :
    firstLongest len (as ++ [a]) = keepLonger len (firstLongest len as) a := by
  simp [firstLongest]

theorem exists_firstLongest (len : α → Nat) {as : List α} (h : as ≠ []) :
    ∃ b, firstLongest len as = some b := by
  cases as using List.reverseRecOn with
  | nil => exact absurd rfl h
  | append_singleton as a _ =>
      rw [firstLongest_concat]
      cases firstLongest len as with
      | none => exact ⟨a, rfl⟩
      | some b =>
          rw [keepLonger]
          split
          · exact ⟨a, rfl⟩
          · exact ⟨b, rfl⟩

theorem wins_of_firstLongest {r : α → α → Prop} {as : List α} {b : α} (sorted : as.Pairwise r)
    (h : firstLongest len as = some b) : Wins len r b as := by
  induction as using List.reverseRecOn generalizing b with
  | nil => cases h
  | append_singleton as a ih =>
      rw [List.pairwise_append] at sorted
      obtain ⟨sortedAs, -, last⟩ := sorted
      rw [firstLongest_concat] at h
      cases hd : firstLongest len as with
      | none =>
          obtain rfl : as = [] := by
            by_contra hne
            obtain ⟨d, hd'⟩ := exists_firstLongest len hne
            simp [hd] at hd'
          rw [hd, keepLonger] at h
          obtain rfl := Option.some.inj h
          exact ⟨by simp, by simp⟩
      | some d =>
          obtain ⟨hmem, hbest⟩ := ih sortedAs hd
          rw [hd, keepLonger] at h
          by_cases hlt : len d < len a
          · rw [if_pos hlt] at h
            obtain rfl := Option.some.inj h
            refine ⟨by simp, ?_⟩
            intro x hx
            rcases List.mem_append.mp hx with hx | hx
            · rcases hbest x hx with hx | ⟨hx, -⟩
              · exact .inl (by omega)
              · exact .inl (by omega)
            · exact .inr ⟨by rw [List.mem_singleton.mp hx], .inl (List.mem_singleton.mp hx)⟩
          · rw [if_neg hlt] at h
            obtain rfl := Option.some.inj h
            refine ⟨by simp [hmem], ?_⟩
            intro x hx
            rcases List.mem_append.mp hx with hx | hx
            · exact hbest x hx
            · obtain rfl := List.mem_singleton.mp hx
              have after : r d x := last d hmem x (by simp)
              by_cases heq : len x = len d
              · exact .inr ⟨heq, .inr after⟩
              · exact .inl (by omega)

/-- The scan finds the one element that wins. -/
theorem firstLongest_eq_some_iff {r : α → α → Prop} {as : List α} {b : α}
    (asymm : ∀ a b, r a b → ¬ r b a) (sorted : as.Pairwise r) :
    firstLongest len as = some b ↔ Wins len r b as := by
  constructor
  · exact wins_of_firstLongest sorted
  · rintro ⟨hmem, hbest⟩
    obtain ⟨d, hd⟩ := exists_firstLongest len (List.ne_nil_of_mem hmem)
    obtain ⟨hdmem, hdbest⟩ := wins_of_firstLongest sorted hd
    rw [hd]
    rcases hbest d hdmem with hlt | ⟨-, rfl | hafter⟩
    · rcases hdbest b hmem with hlt' | ⟨heq, -⟩
      · omega
      · omega
    · rfl
    · rcases hdbest b hmem with hlt' | ⟨-, rfl | hafter'⟩
      · have := hbest d hdmem
        omega
      · rfl
      · exact absurd hafter' (asymm b d hafter)

theorem firstLongest_eq_none_iff {as : List α} : firstLongest len as = none ↔ as = [] := by
  constructor
  · intro h
    by_contra hne
    obtain ⟨b, hb⟩ := exists_firstLongest len hne
    simp [h] at hb
  · rintro rfl
    rfl

end Wnza.Foundation.Longest
