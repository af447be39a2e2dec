/- GID: Wnza/Foundation/Memo
   generality: G
   digest: A service that remembers its answers by a key gives those of the first requests. -/

import Mathlib.Data.List.Basic
import Mathlib.Logic.Function.Basic

set_option autoImplicit false
set_option relaxedAutoImplicit false

namespace Wnza.Foundation.Memo

universe u v w

/-- Requests have a key, and are computed or refused.  Answers to requests with a volatile key are
computed anew. -/
structure Service (Q : Type u) (K : Type v) (R : Type w) where
  key : Q → K
  volatile : K → Bool
  compute : Q → Option R
  refusal : R

namespace Service

variable {Q : Type u} {K : Type v} {R : Type w} [DecidableEq K] (S : Service Q K R)

/-- What is computed for the first request with a key that is not refused. -/
def first (past : List Q) (k : K) : Option R :=
  past.findSome? (fun q => if S.key q = k then S.compute q else none)

def answer (past : List Q) (q : Q) : R :=
  (if S.volatile (S.key q) then S.compute q else S.first (past ++ [q]) (S.key q)).getD S.refusal

/-- One request, with the answers stored so far. -/
def serve (stored : K → Option R) (q : Q) : R × (K → Option R) :=
  match if S.volatile (S.key q) then none else stored (S.key q) with
  | some r => (r, stored)
  | none =>
      match S.compute q with
      | some r => (r, Function.update stored (S.key q) (some r))
      | none => (S.refusal, stored)

/-- The answers stored behind earlier requests; for a volatile key it is the last one. -/
structure Remembers (past : List Q) (stored : K → Option R) : Prop where
  first : ∀ k, S.volatile k = false → stored k = S.first past k
  known : ∀ k, (stored k).isSome ↔ ∃ q ∈ past, S.key q = k ∧ (S.compute q).isSome

variable {S} {past : List Q} {stored : K → Option R} {q : Q} {k : K}

theorem first_concat :
    S.first (past ++ [q]) k =
      (S.first past k).or (if S.key q = k then S.compute q else none) := by
  rw [first, List.findSome?_append, ← first]
  congr 1
  rw [List.findSome?_cons]
  cases (if S.key q = k then S.compute q else none) <;> rfl

theorem serve_cases (S : Service Q K R) (stored : K → Option R) (q : Q) :
    (∃ r, S.volatile (S.key q) = false ∧ stored (S.key q) = some r ∧
      S.serve stored q = (r, stored)) ∨
    ((S.volatile (S.key q) = true ∨ stored (S.key q) = none) ∧
      ((∃ r, S.compute q = some r ∧
          S.serve stored q = (r, Function.update stored (S.key q) (some r))) ∨
        S.compute q = none ∧ S.serve stored q = (S.refusal, stored))) := by
  unfold serve
  cases hvolatile : S.volatile (S.key q) with
  | true =>
      right
      cases hcompute : S.compute q with
      | some r => exact ⟨.inl rfl, .inl ⟨r, rfl, rfl⟩⟩
      | none => exact ⟨.inl rfl, .inr ⟨rfl, rfl⟩⟩
  | false =>
      cases hstored : stored (S.key q) with
      | some r => exact .inl ⟨r, rfl, rfl, rfl⟩
      | none =>
          right
          cases hcompute : S.compute q with
          | some r => exact ⟨.inr rfl, .inl ⟨r, rfl, rfl⟩⟩
          | none => exact ⟨.inr rfl, .inr ⟨rfl, rfl⟩⟩

theorem Remembers.nil : S.Remembers [] (fun _ => none) :=
  ⟨fun _ _ => rfl, by simp⟩

/-- The answer of a service with a memory is the one of the first request. -/
theorem Remembers.answer (h : S.Remembers past stored) (q : Q) :
    (S.serve stored q).1 = S.answer past q := by
  unfold Service.answer
  obtain ⟨r, hvolatile, hstored, hserve⟩ | ⟨unstored, computed⟩ := S.serve_cases stored q
  · rw [h.first _ hvolatile] at hstored
    rw [hserve, hvolatile, if_neg (by simp), first_concat, hstored]
    rfl
  · have direct : (if S.volatile (S.key q) = true then S.compute q
        else S.first (past ++ [q]) (S.key q)) = S.compute q := by
      cases hvolatile : S.volatile (S.key q) with
      | true => exact if_pos rfl
      | false =>
          rw [hvolatile, h.first _ hvolatile] at unstored
          rw [if_neg (by simp), first_concat, unstored.resolve_left (by simp), Option.none_or,
            if_pos rfl]
    rw [direct]
    obtain ⟨r, hcompute, hserve⟩ | ⟨hcompute, hserve⟩ := computed
    · rw [hserve, hcompute]
      rfl
    · rw [hserve, hcompute]
      rfl

/-- What is stored behind a request. -/
theorem Remembers.serve (h : S.Remembers past stored) (q : Q) :
    S.Remembers (past ++ [q]) (S.serve stored q).2 := by
  have split : ∀ k, (∃ p ∈ past ++ [q], S.key p = k ∧ (S.compute p).isSome) ↔
      (stored k).isSome ∨ (S.key q = k ∧ (S.compute q).isSome) := by
    intro k
    rw [h.known k]
    simp only [List.mem_append, List.mem_singleton, or_and_right, exists_or, exists_eq_left]
  obtain ⟨r, hvolatile, hstored, hserve⟩ | ⟨unstored, ⟨r, hcompute, hserve⟩ | ⟨hcompute, hserve⟩⟩ :=
    S.serve_cases stored q
  · have after : (S.serve stored q).2 = stored := by rw [hserve]
    rw [after]
    refine ⟨fun k hk => ?_, fun k => ?_⟩
    · rw [first_concat, ← h.first k hk]
      by_cases same : S.key q = k
      · rw [← same, hstored]
        rfl
      · rw [if_neg same, Option.or_none]
    · rw [split]
      constructor
      · exact .inl
      · rintro (old | ⟨rfl, -⟩)
        · exact old
        · rw [hstored]
          rfl
  · have after : (S.serve stored q).2 = Function.update stored (S.key q) (some r) := by rw [hserve]
    rw [after]
    refine ⟨fun k hk => ?_, fun k => ?_⟩
    · rw [first_concat, ← h.first k hk]
      by_cases same : S.key q = k
      · subst same
        rw [hk] at unstored
        rw [Function.update_self, unstored.resolve_left (by simp), if_pos rfl, hcompute]
        rfl
      · rw [Function.update_of_ne (Ne.symm same), if_neg same, Option.or_none]
    · rw [split]
      by_cases same : S.key q = k
      · subst same
        simp [hcompute]
      · simp [Function.update_of_ne (Ne.symm same), same]
  · have after : (S.serve stored q).2 = stored := by rw [hserve]
    rw [after]
    refine ⟨fun k hk => ?_, fun k => ?_⟩
    · rw [first_concat, ← h.first k hk, hcompute, ite_self, Option.or_none]
    · rw [split, hcompute]
      simp

end Service

end Wnza.Foundation.Memo
