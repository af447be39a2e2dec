/- GID: Wnza/Foundation/Orbit
   generality: G
   digest: The iterates of a partial function end exactly if none of them repeats. -/

import Mathlib.Data.Set.Finite.Basic

set_option autoImplicit false
set_option relaxedAutoImplicit false

namespace Wnza.Foundation.Orbit

universe u

variable {α : Type u}

def orbit (f : α → Option α) (a : α) : Nat → Option α
  | 0 => some a
  | n + 1 => (orbit f a n).bind f

variable {f : α → Option α} {a b : α}

theorem orbit_add (n m : Nat) : orbit f a (n + m) = (orbit f a n).bind (fun b => orbit f b m) := by
  induction m with
  | zero => cases orbit f a n <;> rfl
  | succ m ih =>
      rw [Nat.add_succ, orbit, ih]
      cases orbit f a n <;> rfl

theorem orbit_succ_eq_none {n : Nat} (h : orbit f a n = none) (m : Nat) :
    orbit f a (n + m) = none := by
  rw [orbit_add, h]
  rfl

/-- A point that is reached is reached through points before it. -/
theorem exists_of_orbit {n : Nat} (h : orbit f a n = some b) {m : Nat} (hm : m ≤ n) :
    ∃ c, orbit f a m = some c := by
  cases hc : orbit f a m with
  | some c => exact ⟨c, rfl⟩
  | none =>
      have := orbit_succ_eq_none hc (n - m)
      rw [Nat.add_sub_cancel' hm, h] at this
      cases this

theorem orbit_periodic {i d : Nat} (hi : orbit f a i = some b) (hd : orbit f a (i + d) = some b)
    (q : Nat) : orbit f a (i + q * d) = some b := by
  have again : orbit f b d = some b := by
    rw [orbit_add, hi] at hd
    exact hd
  induction q with
  | zero => simpa using hi
  | succ q ih =>
      rw [Nat.succ_mul, ← Nat.add_assoc, orbit_add, ih]
      exact again

/-- Iterates that end do not repeat. -/
theorem orbit_injective_of_ends {n : Nat} (ends : orbit f a n = none) {i j : Nat}
    (hi : orbit f a i = some b) (hj : orbit f a j = some b) : i = j := by
  have forward : ∀ {i j}, orbit f a i = some b → orbit f a j = some b → j ≤ i := by
    intro i j hi hj
    by_contra hlt
    have step : i + (j - i) = j := by omega
    have back := orbit_periodic hi (by rwa [step]) n
    have far : n ≤ i + n * (j - i) := by
      have := Nat.le_mul_of_pos_right n (show 0 < j - i by omega)
      omega
    obtain ⟨c, hc⟩ := exists_of_orbit back far
    rw [ends] at hc
    cases hc
  exact Nat.le_antisymm (forward hj hi) (forward hi hj)

/-- Over finitely many values the iterates end exactly if no point is reached twice. -/
theorem orbit_ends_iff (finite : {b | ∃ a, f a = some b}.Finite) :
    (∃ n, orbit f a n = none) ↔
      ∀ i j b, orbit f a i = some b → orbit f a j = some b → i = j := by
  constructor
  · rintro ⟨n, ends⟩ i j b hi hj
    exact orbit_injective_of_ends ends hi hj
  · intro injective
    by_contra endless
    have reached : ∀ n, ∃ b, orbit f a n = some b := fun n =>
      Option.ne_none_iff_exists'.mp (fun h => endless ⟨n, h⟩)
    choose point hpoint using reached
    refine Set.infinite_of_injective_forall_mem (f := fun n => point (n + 1)) ?_ ?_ finite
    · intro i j same
      have heq : point (i + 1) = point (j + 1) := same
      have := injective (i + 1) (j + 1) (point (i + 1)) (hpoint _) (by rw [heq]; exact hpoint _)
      omega
    · intro n
      refine ⟨point n, ?_⟩
      have next := hpoint (n + 1)
      rw [orbit, hpoint n] at next
      exact next

end Wnza.Foundation.Orbit
