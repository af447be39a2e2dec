/- GID: Wnza/Foundation/FirstInsert
   generality: G
   digest: Ordered maps filled by insertions that never overwrite keep the first value of a key. -/

import Mathlib.Data.List.Basic

set_option autoImplicit false
set_option relaxedAutoImplicit false

namespace Wnza.Foundation.FirstInsert

open Std

universe u v

variable {α : Type u} {β : Type v} {cmp : α → α → Ordering} [TransCmp cmp]

def insertFirst (t : ExtTreeMap α β cmp) (ps : List (α × β)) : ExtTreeMap α β cmp :=
  ps.foldl (fun t p => t.insertIfNew p.1 p.2) t

def firstValue [DecidableEq α] (ps : List (α × β)) (k : α) : Option β :=
  (ps.find? (fun p => decide (p.1 = k))).map Prod.snd

theorem insertFirst_append (t : ExtTreeMap α β cmp) (ps qs : List (α × β)) :
    insertFirst t (ps ++ qs) = insertFirst (insertFirst t ps) qs := by
  simp only [insertFirst, List.foldl_append]

theorem getElem?_insertFirst [LawfulEqCmp cmp] [DecidableEq α] (t : ExtTreeMap α β cmp)
    (ps : List (α × β)) (k : α) :
    (insertFirst t ps)[k]? = t[k]?.or (firstValue ps k) := by
  induction ps generalizing t with
  | nil => simp [insertFirst, firstValue]
  | cons p ps ih =>
      have step : insertFirst t (p :: ps) = insertFirst (t.insertIfNew p.1 p.2) ps := rfl
      rw [step, ih, ExtTreeMap.getElem?_insertIfNew]
      by_cases hk : p.1 = k
      · subst hk
        by_cases hm : p.1 ∈ t
        · simp [hm]
        · simp [hm, firstValue]
      · have hne : cmp p.1 k ≠ .eq := fun h => hk (LawfulEqCmp.eq_of_compare h)
        simp [hne, hk, firstValue]

theorem isEmpty_insertFirst [LawfulEqCmp cmp] [DecidableEq α] (ps : List (α × β)) :
    (insertFirst (∅ : ExtTreeMap α β cmp) ps).isEmpty = ps.isEmpty := by
  cases ps with
  | nil => simp [insertFirst]
  | cons p ps =>
      rw [List.isEmpty_cons, ExtTreeMap.isEmpty_eq_false_iff]
      intro h
      have found := getElem?_insertFirst (∅ : ExtTreeMap α β cmp) (p :: ps) p.1
      rw [h] at found
      simp [firstValue] at found

/-- A map is rebuilt from its own entries. -/
theorem insertFirst_toList [LawfulEqCmp cmp] [DecidableEq α] (t : ExtTreeMap α β cmp) :
    insertFirst ∅ t.toList = t := by
  apply ExtTreeMap.ext_getElem?
  intro k
  rw [getElem?_insertFirst]
  simp only [ExtTreeMap.getElem?_empty, Option.none_or]
  apply Option.ext
  intro v
  have unique : ∀ v v', (k, v) ∈ t.toList → (k, v') ∈ t.toList → v = v' := by
    intro v v' h h'
    rw [ExtTreeMap.mem_toList_iff_getElem?_eq_some] at h h'
    exact Option.some.inj (h.symm.trans h')
  constructor
  · intro h
    obtain ⟨p, hp, rfl⟩ := Option.map_eq_some_iff.mp h
    have hk : p.1 = k := by simpa using List.find?_some hp
    subst hk
    exact ExtTreeMap.mem_toList_iff_getElem?_eq_some.mp (List.mem_of_find?_eq_some hp)
  · intro h
    have hmem : (k, v) ∈ t.toList := ExtTreeMap.mem_toList_iff_getElem?_eq_some.mpr h
    cases hf : t.toList.find? (fun p => decide (p.1 = k)) with
    | none =>
        have := List.find?_eq_none.mp hf _ hmem
        simp at this
    | some p =>
        have hk : p.1 = k := by simpa using List.find?_some hf
        subst hk
        have hv := unique _ _ (List.mem_of_find?_eq_some hf) hmem
        simp [firstValue, hf, hv]

end Wnza.Foundation.FirstInsert
