/- GID: Wnza/Foundation/Fairness
   generality: G
   digest: A component that is scheduled fairly and loses rank with every move ends. -/

import Mathlib.Order.WellFounded

set_option autoImplicit false
set_option relaxedAutoImplicit false

namespace Wnza.Foundation.Fairness

universe u v

variable {A : Type u} {W : Type v} {component : Nat → A} {moves enabled : Nat → Prop} {N : Nat}

/-- From some time on a component that is able to move all the time moves. -/
def WeaklyFair (N : Nat) (enabled moves : Nat → Prop) : Prop :=
  ∀ n, N ≤ n → (∀ m, n ≤ m → enabled m) → ∃ m, n ≤ m ∧ moves m

/-- What comes to hold comes to hold with a step. -/
theorem exists_change {P : Nat → Prop} {n : Nat} (start : ¬ P N) (later : N ≤ n) (holds : P n) :
    ∃ m, N ≤ m ∧ ¬ P m ∧ P (m + 1) := by
  induction n, later using Nat.le_induction with
  | base => exact absurd holds start
  | succ n later ih =>
      by_cases before : P n
      · exact ih before
      · exact ⟨n, later, before, holds⟩

theorem WeaklyFair.later {M : Nat} (h : WeaklyFair N enabled moves) (later : N ≤ M) :
    WeaklyFair M enabled moves :=
  fun n start => h n (later.trans start)

theorem first_move (still : ∀ n, N ≤ n → ¬ moves n → component (n + 1) = component n) {n : Nat}
    (start : N ≤ n) :
    (∀ m, n ≤ m → component m = component n) ∨
      ∃ m, n ≤ m ∧ moves m ∧ component m = component n := by
  by_cases rests : ∀ m, n ≤ m → component m = component n
  · exact .inl rests
  · right
    by_contra never
    apply rests
    intro m later
    induction m, later using Nat.le_induction with
    | base => rfl
    | succ m later ih =>
        have stays : ¬ moves m := by
          intro move
          exact never ⟨m, later, move, ih⟩
        rw [still m (by omega) stays, ih]

/-- Every move takes a component down in a well-founded order; a component that has not ended and
rests becomes able to move for good.  Under weak fairness it ends. -/
theorem WeaklyFair.ends {below : W → W → Prop} (wf : WellFounded below) {rank : A → W}
    {ended : A → Prop} (fair : WeaklyFair N enabled moves)
    (still : ∀ n, N ≤ n → ¬ moves n → component (n + 1) = component n)
    (descends : ∀ n, N ≤ n → ¬ ended (component n) → moves n →
      below (rank (component (n + 1))) (rank (component n)))
    (progress : ∀ n, N ≤ n → ¬ ended (component n) → (∀ m, n ≤ m → component m = component n) →
      ∃ k, n ≤ k ∧ ∀ m, k ≤ m → enabled m) :
    ∃ n, N ≤ n ∧ ended (component n) := by
  have from_here : ∀ w n, N ≤ n → rank (component n) = w → ∃ m, n ≤ m ∧ ended (component m) := by
    intro w
    induction w using wf.induction with
    | h w ih =>
        intro n start hw
        by_cases done : ended (component n)
        · exact ⟨n, le_rfl, done⟩
        have moved : ∃ m, n ≤ m ∧ moves m ∧ component m = component n := by
          obtain rests | moved := first_move still start
          · -- a component that rests for good is able to move, and fairness makes it move
            obtain ⟨k, later, able⟩ := progress n start done rests
            obtain ⟨m, after, move⟩ := fair k (by omega) able
            exact ⟨m, by omega, move, rests m (by omega)⟩
          · exact moved
        obtain ⟨m, later, move, same⟩ := moved
        have lower := descends m (by omega) (by rwa [same]) move
        rw [same, hw] at lower
        obtain ⟨k, after, done⟩ := ih _ lower (m + 1) (by omega) rfl
        exact ⟨k, by omega, done⟩
  exact from_here _ N le_rfl rfl

end Wnza.Foundation.Fairness
