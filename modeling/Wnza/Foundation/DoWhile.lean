/- GID: Wnza/Foundation/DoWhile
   generality: G
   digest: Loops that run a body at least once, collect what it emits and may never end. -/

import Mathlib.Logic.Relation

set_option autoImplicit false
set_option relaxedAutoImplicit false

namespace Wnza.Foundation.DoWhile

universe u v w

variable {σ : Type u} {α : Type v} {ε : Type w}

/-- One pass of the body emits some values, then asks for another pass, ends the loop or
raises. -/
inductive Pass (σ : Type u) (α : Type v) (ε : Type w) where
  | again (out : List α) (s : σ)
  | exit (out : List α) (s : σ)
  | raise (out : List α) (e : ε)

/-- How a loop ends, if it does. -/
inductive Ending (σ : Type u) (ε : Type w) where
  | exited (s : σ)
  | raised (e : ε)

/-- At most so many passes; `none` when they do not end the loop. -/
def loop (body : σ → Pass σ α ε) : Nat → σ → Option (List α × Ending σ ε)
  | 0, _ => none
  | n + 1, s =>
      match body s with
      | .exit out t => some (out, .exited t)
      | .raise out e => some (out, .raised e)
      | .again out t => (loop body n t).map (fun r => (out ++ r.1, r.2))

/-- The values that one pass emits. -/
def Pass.out : Pass σ α ε → List α
  | .again out _ => out
  | .exit out _ => out
  | .raise out _ => out

/-- The states in which the first `n` passes begin, in order. -/
def starts (body : σ → Pass σ α ε) : Nat → σ → List σ
  | 0, _ => []
  | n + 1, s =>
      s ::
        match body s with
        | .exit _ _ => []
        | .raise _ _ => []
        | .again _ t => starts body n t

/-- The loop ends with these values emitted. -/
def Ends (body : σ → Pass σ α ε) (s : σ) (out : List α) (e : Ending σ ε) : Prop :=
  ∃ n, loop body n s = some (out, e)

/-- The states in which a pass of the loop begins. -/
def Begins (body : σ → Pass σ α ε) : σ → σ → Prop :=
  Relation.ReflTransGen (fun s t => ∃ out, body s = .again out t)

variable {body : σ → Pass σ α ε}

theorem ends_of_exit {s t : σ} {out : List α} (h : body s = .exit out t) :
    Ends body s out (.exited t) :=
  ⟨1, by simp only [loop, h]⟩

theorem ends_of_raise {s : σ} {out : List α} {e : ε} (h : body s = .raise out e) :
    Ends body s out (.raised e) :=
  ⟨1, by simp only [loop, h]⟩

/-- A loop whose first pass ends it begins no other pass. -/
theorem begins_of_exit {s t u : σ} {out : List α} (h : body s = .exit out t)
    (begins : Begins body s u) : u = s := by
  rcases begins.cases_head with same | ⟨v, ⟨out', again⟩, -⟩
  · exact same.symm
  · rw [h] at again
    cases again

theorem begins_of_mem_starts {n : Nat} {s u : σ} (h : u ∈ starts body n s) : Begins body s u := by
  induction n generalizing s with
  | zero => cases h
  | succ n ih =>
      rcases List.mem_cons.mp h with rfl | h
      · exact .refl
      · cases hb : body s with
        | exit out t => simp [hb] at h
        | raise out e => simp [hb] at h
        | again out t =>
            rw [hb] at h
            exact .head ⟨out, hb⟩ (ih h)

/-- A loop emits what its passes emit, one after the other. -/
theorem out_of_loop {n : Nat} {s : σ} {out : List α} {e : Ending σ ε}
    (h : loop body n s = some (out, e)) :
    out = (starts body n s).flatMap (fun u => (body u).out) := by
  induction n generalizing s out with
  | zero => simp [loop] at h
  | succ n ih =>
      cases hb : body s with
      | exit o t =>
          simp only [loop, hb, Option.some.injEq, Prod.mk.injEq] at h
          simp [starts, hb, Pass.out, h.1]
      | raise o f =>
          simp only [loop, hb, Option.some.injEq, Prod.mk.injEq] at h
          simp [starts, hb, Pass.out, h.1]
      | again o t =>
          simp only [loop, hb, Option.map_eq_some_iff] at h
          obtain ⟨⟨rest, f⟩, hq, hr⟩ := h
          obtain ⟨rfl, rfl⟩ := Prod.mk.inj hr
          have first : (body s).out = o := by rw [hb, Pass.out]
          simp only [starts, hb, List.flatMap_cons]
          rw [← ih hq, ← hb, first]

theorem loop_succ {n : Nat} {s : σ} {r : List α × Ending σ ε} (h : loop body n s = some r) :
    loop body (n + 1) s = some r := by
  induction n generalizing s r with
  | zero => simp [loop] at h
  | succ n ih =>
      cases hb : body s with
      | exit out t => simpa [loop, hb] using h
      | raise out e => simpa [loop, hb] using h
      | again out t =>
          simp only [loop, hb, Option.map_eq_some_iff] at h
          obtain ⟨q, hq, rfl⟩ := h
          simp only [loop, hb] at ih ⊢
          rw [ih hq, Option.map_some]

theorem loop_mono {n m : Nat} {s : σ} {r : List α × Ending σ ε} (h : loop body n s = some r)
    (hle : n ≤ m) : loop body m s = some r := by
  induction hle with
  | refl => exact h
  | step _ ih => exact loop_succ ih

/-- A loop ends in one way. -/
theorem Ends.unique {s : σ} {out out' : List α} {e e' : Ending σ ε} (h : Ends body s out e)
    (h' : Ends body s out' e') : out = out' ∧ e = e' := by
  obtain ⟨n, hn⟩ := h
  obtain ⟨m, hm⟩ := h'
  have left := loop_mono hn (Nat.le_max_left n m)
  have right := loop_mono hm (Nat.le_max_right n m)
  simpa using left.symm.trans right

/-- Divergence rule: from states that all ask for another pass the loop never ends. -/
theorem not_ends_of_again {P : σ → Prop}
    (again : ∀ s, P s → ∃ out t, body s = .again out t ∧ P t) {s : σ} (hs : P s)
    (out : List α) (e : Ending σ ε) : ¬ Ends body s out e := by
  rintro ⟨n, hn⟩
  induction n generalizing s out with
  | zero => simp [loop] at hn
  | succ n ih =>
      obtain ⟨out', t, hb, ht⟩ := again s hs
      simp only [loop, hb, Option.map_eq_some_iff] at hn
      obtain ⟨⟨rest, e'⟩, hq, hr⟩ := hn
      obtain rfl : e' = e := congrArg Prod.snd hr
      exact ih ht rest hq

def Pass.Keeps (P : σ → Prop) (Q : α → Prop) : Pass σ α ε → Prop
  | .again out t => P t ∧ ∀ a ∈ out, Q a
  | .exit out t => P t ∧ ∀ a ∈ out, Q a
  | .raise out _ => ∀ a ∈ out, Q a

/-- Invariant rule: what every pass keeps, the loop keeps. -/
theorem Ends.invariant {P : σ → Prop} {Q : α → Prop} (keeps : ∀ s, P s → (body s).Keeps P Q)
    {s t : σ} {out : List α} (hs : P s) (h : Ends body s out (.exited t)) :
    P t ∧ ∀ a ∈ out, Q a := by
  obtain ⟨n, hn⟩ := h
  induction n generalizing s out with
  | zero => simp [loop] at hn
  | succ n ih =>
      have kept := keeps s hs
      cases hb : body s with
      | exit o u =>
          simp only [loop, hb, Option.some.injEq, Prod.mk.injEq, Ending.exited.injEq] at hn
          obtain ⟨rfl, rfl⟩ := hn
          rw [hb] at kept
          exact kept
      | raise o e => simp [loop, hb] at hn
      | again o u =>
          simp only [loop, hb, Option.map_eq_some_iff] at hn
          obtain ⟨⟨rest, e⟩, hq, hr⟩ := hn
          obtain ⟨rfl, rfl⟩ := Prod.mk.inj hr
          rw [hb] at kept
          obtain ⟨last, emitted⟩ := ih kept.1 hq
          exact ⟨last, List.forall_mem_append.mpr ⟨kept.2, emitted⟩⟩

end Wnza.Foundation.DoWhile
