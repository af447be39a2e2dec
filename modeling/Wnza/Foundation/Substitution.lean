/- GID: Wnza/Foundation/Substitution
   generality: G
   digest: Replacing single elements of a list by what stands before them, and occurrences by it. -/

import Wnza.Foundation.Substring

set_option autoImplicit false
set_option relaxedAutoImplicit false

namespace Wnza.Foundation.Substitution

open Wnza.Foundation.Substring

universe u

variable {α : Type u}

def rewriteFrom (f : List α → α → List α) : List α → List α → List α
  | _, [] => []
  | before, c :: s => f before c ++ rewriteFrom f (before ++ [c]) s

section Rewriting

variable {f g k : List α → α → List α}

theorem rewriteFrom_append (before a b : List α) :
    rewriteFrom f before (a ++ b) = rewriteFrom f before a ++ rewriteFrom f (before ++ a) b := by
  induction a generalizing before with
  | nil => simp [rewriteFrom]
  | cons c a ih => simp [rewriteFrom, ih]

theorem rewriteFrom_concat (s : List α) (c : α) :
    rewriteFrom f [] (s ++ [c]) = rewriteFrom f [] s ++ f s c := by
  simp [rewriteFrom_append, rewriteFrom]

/-- Elements that are put in their own place. -/
theorem rewriteFrom_of_kept {before a : List α}
    (kept : ∀ x d y, a = x ++ d :: y → f (before ++ x) d = [d]) : rewriteFrom f before a = a := by
  induction a generalizing before with
  | nil => rfl
  | cons d a ih =>
      have first : f before d = [d] := by simpa using kept [] d a rfl
      have rest : rewriteFrom f (before ++ [d]) a = a := by
        refine ih (fun x e y split => ?_)
        rw [List.append_assoc]
        exact kept (d :: x) e y (by rw [split]; rfl)
      rw [rewriteFrom, first, rest, List.singleton_append]

/-- Two passes are one if they are at each element. -/
theorem rewriteFrom_comp
    (agree : ∀ before c, rewriteFrom g (rewriteFrom f [] before) (f before c) = k before c)
    (before s : List α) :
    rewriteFrom g (rewriteFrom f [] before) (rewriteFrom f before s) = rewriteFrom k before s := by
  induction s generalizing before with
  | nil => rfl
  | cons c s ih =>
      rw [rewriteFrom, rewriteFrom_append, agree, ← rewriteFrom_concat, ih (before ++ [c]),
        rewriteFrom]

end Rewriting

/-- If only one element is replaced, by lists that end in it, then the lists without this element
that stand before a place stay the same. -/
theorem suffix_rewriteFrom_iff {f : List α → α → List α} {c : α}
    (kept : ∀ before d, d ≠ c → f before d = [d]) (ends : ∀ before, ∃ x, f before c = x ++ [c])
    {t s : List α} (ht : c ∉ t) : t <:+ rewriteFrom f [] s ↔ t <:+ s := by
  induction s using List.reverseRecOn generalizing t with
  | nil => rfl
  | append_singleton s d ih =>
      rw [rewriteFrom_concat]
      by_cases hd : d = c
      · subst hd
        obtain ⟨x, hx⟩ := ends s
        -- a list without the element is a suffix of one that ends in it only if it is empty
        have empty : ∀ y, t <:+ y ++ [d] ↔ t = [] := by
          intro y
          rw [List.suffix_concat_iff]
          constructor
          · rintro (rfl | ⟨v, rfl, -⟩)
            · rfl
            · exact absurd (by simp) ht
          · exact .inl
        rw [hx, ← List.append_assoc, empty, empty]
      · rw [kept s d hd, List.suffix_concat_iff, List.suffix_concat_iff]
        refine or_congr Iff.rfl (exists_congr fun v => and_congr_right fun hv => ih ?_)
        rw [hv] at ht
        exact fun h => ht (by simp [h])

section Occurrences

/-- No occurrence of the list begins before this place and ends behind it. -/
def Apart (needle before s : List α) : Prop :=
  ∀ v w, v ≠ [] → w ≠ [] → needle = v ++ w → v <:+ before → ¬ w <+: s

theorem Apart.start (needle s : List α) : Apart needle [] s := by
  intro v w hv _ _ suffix
  exact absurd (List.suffix_nil.mp suffix) hv

theorem Apart.next {needle before s : List α} {d : α} (apart : Apart needle before (d :: s))
    (other : ¬ needle <+: d :: s) : Apart needle (before ++ [d]) s := by
  rintro v w hv hw split suffix ⟨x, rfl⟩
  obtain rfl | ⟨u, rfl, hu⟩ := List.suffix_concat_iff.mp suffix
  · exact hv rfl
  · have here : d :: w <+: d :: (w ++ x) := ⟨x, rfl⟩
    rw [List.append_assoc, List.singleton_append] at split
    cases u with
    | nil =>
        rw [split] at other
        exact other here
    | cons e u => exact apart (e :: u) (d :: w) (by simp) (by simp) split hu here

theorem Apart.behind {t : List α} {c : α} (hc : c ∉ t) (before s : List α) :
    Apart (t ++ [c]) (before ++ (t ++ [c])) s := by
  rintro v w hv hw split suffix -
  rw [← List.append_assoc] at suffix
  obtain rfl | ⟨u, rfl, -⟩ := List.suffix_concat_iff.mp suffix
  · exact hv rfl
  · -- the element would stand before the last place of the occurrence
    obtain ⟨w, e, rfl⟩ := (List.eq_nil_or_concat' w).resolve_left hw
    rw [← List.append_assoc] at split
    have := (List.append_inj' split rfl).1
    exact hc (by rw [this]; simp)

end Occurrences

section Replacing

variable [DecidableEq α]

/-- Put `r` in place of the element `c` where `t` stands before it. -/
def substAfter (t : List α) (c : α) (r : List α) (before : List α) (d : α) : List α :=
  if d = c ∧ t <:+ before then r else [d]

variable {t r : List α} {c : α}

theorem substAfter_of_ne {before : List α} {d : α} (hd : d ≠ c) :
    substAfter t c r before d = [d] :=
  if_neg (fun h => hd h.1)

theorem replaceFrom_skip (needle new skipped s : List α) :
    replaceFrom needle new skipped.length (skipped ++ s) = replaceFrom needle new 0 s := by
  induction skipped with
  | nil => rfl
  | cons d skipped ih =>
      rw [List.cons_append, List.length_cons, replaceFrom]
      exact ih

theorem replaceFrom_here {needle : List α} (hne : needle ≠ []) (new s : List α) :
    replaceFrom needle new 0 (needle ++ s) = new ++ replaceFrom needle new 0 s := by
  obtain ⟨d, rest, rfl⟩ := List.exists_cons_of_ne_nil hne
  have here : d :: rest <+: d :: (rest ++ s) := ⟨s, rfl⟩
  rw [List.cons_append, replaceFrom, if_pos here, List.length_cons, Nat.add_sub_cancel,
    replaceFrom_skip]

theorem replaceFrom_concat (hc : c ∉ t) (n : Nat) {s before : List α} (hlength : s.length ≤ n)
    (apart : Apart (t ++ [c]) before s) :
    replaceFrom (t ++ [c]) (t ++ r) 0 s = rewriteFrom (substAfter t c r) before s := by
  induction n generalizing s before with
  | zero =>
      rw [List.length_eq_zero_iff.mp (Nat.le_zero.mp hlength)]
      rfl
  | succ n ih =>
      cases s with
      | nil => rfl
      | cons d s =>
          by_cases here : t ++ [c] <+: d :: s
          · obtain ⟨rest, hrest⟩ := here
            have shorter : rest.length ≤ n := by
              have := congrArg List.length hrest
              simp only [List.length_append, List.length_cons, List.length_nil] at this hlength
              omega
            have kept : rewriteFrom (substAfter t c r) before t = t := by
              refine rewriteFrom_of_kept (fun x d y split => substAfter_of_ne ?_)
              exact ne_of_mem_of_not_mem (by rw [split]; simp) hc
            have last : substAfter t c r (before ++ t) c = r :=
              if_pos ⟨rfl, List.suffix_append before t⟩
            rw [← hrest, replaceFrom_here (by simp), ih shorter (.behind hc before rest),
              rewriteFrom_append, rewriteFrom_append, kept, rewriteFrom, rewriteFrom, last,
              List.append_nil]
          · have same : substAfter t c r before d = [d] := by
              refine if_neg ?_
              rintro ⟨rfl, suffix⟩
              have first : [d] <+: d :: s := ⟨s, rfl⟩
              by_cases ht : t = []
              · rw [ht, List.nil_append] at here
                exact here first
              · exact apart t [d] ht (by simp) rfl suffix first
            rw [replaceFrom, if_neg here, ih (Nat.le_of_succ_le_succ hlength) (apart.next here),
              rewriteFrom, same, List.singleton_append]

/-- Replacing the occurrences of a list whose last element occurs in it once means putting
something else in place of that element. -/
theorem replaceAll_concat (hc : c ∉ t) (s : List α) :
    replaceAll (t ++ [c]) (t ++ r) s = rewriteFrom (substAfter t c r) [] s :=
  replaceFrom_concat hc s.length le_rfl (.start _ s)

end Replacing

end Wnza.Foundation.Substitution
