/- GID: Wnza/Foundation/Feed
   generality: G
   digest: Resumable machines read a stream symbol by symbol and stop at their first verdict. -/

import Mathlib.Data.List.Induction

set_option autoImplicit false
set_option relaxedAutoImplicit false

namespace Wnza.Foundation.Feed

universe u v w x

variable {σ : Type u} {β : Type v} {ω : Type w} {ε : Type x}

/-- One symbol moves the machine on, ends the reading with a verdict, or faults. -/
inductive Reply (σ : Type u) (ω : Type w) (ε : Type x) where
  | next (s : σ)
  | stop (verdict : ω) (s : σ)
  | fault (e : ε)

/-- A machine reacts to one symbol at a time; its state survives between words. -/
abbrev Machine (σ : Type u) (β : Type v) (ω : Type w) (ε : Type x) := σ → β → Reply σ ω ε

/-- What reading a finite word leads to.  A verdict keeps the symbols not yet read. -/
inductive Outcome (σ : Type u) (β : Type v) (ω : Type w) (ε : Type x) where
  | more (s : σ)
  | done (verdict : ω) (s : σ) (rest : List β)
  | fault (e : ε)

def feed (step : Machine σ β ω ε) : σ → List β → Outcome σ β ω ε
  | s, [] => .more s
  | s, b :: bs =>
      match step s b with
      | .next t => feed step t bs
      | .stop r t => .done r t bs
      | .fault e => .fault e

def Outcome.resume (step : Machine σ β ω ε) (o : Outcome σ β ω ε) (bs : List β) :
    Outcome σ β ω ε :=
  match o with
  | .more s => feed step s bs
  | .done r s rest => .done r s (rest ++ bs)
  | .fault e => .fault e

variable {step : Machine σ β ω ε}

@[simp] theorem feed_nil (s : σ) : feed step s [] = .more s := rfl

theorem feed_cons_next {s t : σ} {b : β} (h : step s b = .next t) (bs : List β) :
    feed step s (b :: bs) = feed step t bs := by
  simp only [feed, h]

theorem feed_cons_stop {s t : σ} {b : β} {r : ω} (h : step s b = .stop r t) (bs : List β) :
    feed step s (b :: bs) = .done r t bs := by
  simp only [feed, h]

theorem feed_cons_fault {s : σ} {b : β} {e : ε} (h : step s b = .fault e) (bs : List β) :
    feed step s (b :: bs) = .fault e := by
  simp only [feed, h]

/-- The cut between two words is invisible to the machine. -/
theorem feed_append (s : σ) (as bs : List β) :
    feed step s (as ++ bs) = (feed step s as).resume step bs := by
  induction as generalizing s with
  | nil => rfl
  | cons a as ih =>
      cases h : step s a with
      | next t => simp only [List.cons_append, feed_cons_next h, ih]
      | stop r t => simp only [List.cons_append, feed_cons_stop h, Outcome.resume]
      | fault e => simp only [List.cons_append, feed_cons_fault h, Outcome.resume]

theorem feed_append_of_more {s t : σ} {as : List β} (h : feed step s as = .more t)
    (bs : List β) : feed step s (as ++ bs) = feed step t bs := by
  rw [feed_append, h, Outcome.resume]

/-- A verdict is given at one symbol, after a word that gave none. -/
theorem feed_done_iff {s t : σ} {bs rest : List β} {r : ω} :
    feed step s bs = .done r t rest ↔
      ∃ as b s', bs = as ++ b :: rest ∧ feed step s as = .more s' ∧ step s' b = .stop r t := by
  constructor
  · intro h
    induction bs generalizing s with
    | nil => simp [feed] at h
    | cons b bs ih =>
        cases hb : step s b with
        | next u =>
            rw [feed_cons_next hb] at h
            obtain ⟨as, c, s', rfl, ha, hc⟩ := ih h
            exact ⟨b :: as, c, s', rfl, by rw [feed_cons_next hb, ha], hc⟩
        | stop q u =>
            rw [feed_cons_stop hb] at h
            injection h with hq hu hr
            subst hq hu hr
            exact ⟨[], b, s, rfl, rfl, hb⟩
        | fault e =>
            rw [feed_cons_fault hb] at h
            cases h
  · rintro ⟨as, b, s', rfl, ha, hb⟩
    rw [feed_append_of_more ha, feed_cons_stop hb]

theorem feed_fault_iff {s : σ} {bs : List β} {e : ε} :
    feed step s bs = .fault e ↔
      ∃ as b rest s', bs = as ++ b :: rest ∧ feed step s as = .more s' ∧
        step s' b = .fault e := by
  constructor
  · intro h
    induction bs generalizing s with
    | nil => simp [feed] at h
    | cons b bs ih =>
        cases hb : step s b with
        | next u =>
            rw [feed_cons_next hb] at h
            obtain ⟨as, c, rest, s', rfl, ha, hc⟩ := ih h
            exact ⟨b :: as, c, rest, s', rfl, by rw [feed_cons_next hb, ha], hc⟩
        | stop q u =>
            rw [feed_cons_stop hb] at h
            cases h
        | fault f =>
            rw [feed_cons_fault hb] at h
            injection h with hf
            subst hf
            exact ⟨[], b, bs, s, rfl, rfl, hb⟩
  · rintro ⟨as, b, rest, s', rfl, ha, hb⟩
    rw [feed_append_of_more ha, feed_cons_fault hb]

theorem feed_more_append_iff {s t : σ} {as bs : List β} :
    feed step s (as ++ bs) = .more t ↔
      ∃ u, feed step s as = .more u ∧ feed step u bs = .more t := by
  rw [feed_append]
  cases feed step s as <;> simp [Outcome.resume]

/-- Invariant rule: a relation between the symbols read and the state that one
symbol preserves holds as long as the machine asks for more. -/
theorem feed_more_induction {P : List β → σ → Prop} {s t : σ} {bs : List β}
    (start : P [] s)
    (next : ∀ as b u v, as ++ [b] <+: bs → P as u → step u b = .next v → P (as ++ [b]) v)
    (h : feed step s bs = .more t) : P bs t := by
  induction bs using List.reverseRecOn generalizing t with
  | nil =>
      injection h with h
      subst h
      exact start
  | append_singleton as b ih =>
      obtain ⟨u, hu, hb⟩ := feed_more_append_iff.mp h
      have pu : P as u :=
        ih (fun as' b' u v pre => next as' b' u v (pre.trans (List.prefix_append as [b]))) hu
      cases hs : step u b with
      | next v =>
          rw [feed_cons_next hs] at hb
          injection hb with hb
          subst hb
          exact next as b u v (List.prefix_refl _) pu hs
      | stop r v => simp [feed, hs] at hb
      | fault e => simp [feed, hs] at hb

/-- Collecting rule: a machine that stores each symbol of a word in turn ends with the
whole word stored. -/
theorem feed_collect {f : List β → σ} (bs : List β)
    (next : ∀ as b cs, bs = as ++ b :: cs → step (f as) b = .next (f (as ++ [b]))) :
    feed step (f []) bs = .more (f bs) := by
  have collected : ∀ as cs, bs = as ++ cs → feed step (f as) cs = .more (f bs) := by
    intro as cs
    induction cs generalizing as with
    | nil =>
        rintro rfl
        simp
    | cons c cs ih =>
        intro h
        rw [feed_cons_next (next as c cs h)]
        exact ih (as ++ [c]) (by simpa using h)
  exact collected [] bs rfl

/-- Inversion of a collecting run: before a verdict the symbols of the class come to an end, and
the machine goes on from all of them. -/
theorem feed_collect_inv {f : List β → σ} {p : β → Prop} [DecidablePred p]
    (next : ∀ as b, p b → step (f as) b = .next (f (as ++ [b]))) (as : List β) {bs rest : List β}
    {r : ω} {t : σ} (h : feed step (f as) bs = .done r t rest) :
    ∃ cs b ds, bs = cs ++ b :: ds ∧ (∀ c ∈ cs, p c) ∧ ¬ p b ∧
      feed step (f (as ++ cs)) (b :: ds) = .done r t rest := by
  induction bs generalizing as with
  | nil => cases h
  | cons b bs ih =>
      by_cases hb : p b
      · rw [feed_cons_next (next as b hb)] at h
        obtain ⟨cs, d, ds, rfl, hcs, hd, run⟩ := ih _ h
        refine ⟨b :: cs, d, ds, rfl, List.forall_mem_cons.mpr ⟨hb, hcs⟩, hd, ?_⟩
        simpa using run
      · exact ⟨[], b, bs, rfl, by simp, hb, by simpa using h⟩

/-- The steps that reading a word makes, each as the state and the symbol it is given. -/
def calls (step : Machine σ β ω ε) : σ → List β → List (σ × β)
  | _, [] => []
  | s, b :: bs =>
      (s, b) ::
        match step s b with
        | .next t => calls step t bs
        | .stop _ _ => []
        | .fault _ => []

theorem mem_calls_iff {s u : σ} {bs : List β} {b : β} :
    (u, b) ∈ calls step s bs ↔ ∃ as cs, bs = as ++ b :: cs ∧ feed step s as = .more u := by
  constructor
  · intro h
    induction bs generalizing s with
    | nil => simp [calls] at h
    | cons c bs ih =>
        rcases List.mem_cons.mp h with h | h
        · obtain ⟨rfl, rfl⟩ := Prod.mk.inj h
          exact ⟨[], bs, rfl, rfl⟩
        · cases hc : step s c with
          | next t =>
              rw [hc] at h
              obtain ⟨as, cs, rfl, ha⟩ := ih h
              exact ⟨c :: as, cs, rfl, by rw [feed_cons_next hc, ha]⟩
          | stop r t => simp [hc] at h
          | fault e => simp [hc] at h
  · rintro ⟨as, cs, rfl, ha⟩
    induction as generalizing s with
    | nil =>
        injection ha with ha
        subst ha
        exact List.mem_cons_self
    | cons a as ih =>
        cases hc : step s a with
        | next t =>
            rw [feed_cons_next hc] at ha
            simp only [List.cons_append, calls, hc]
            exact List.mem_cons_of_mem _ (ih ha)
        | stop r t => simp [feed, hc] at ha
        | fault e => simp [feed, hc] at ha

/-- Reading a word raises exactly if one of its steps does. -/
theorem feed_fault_iff_calls {s : σ} {bs : List β} {e : ε} :
    feed step s bs = .fault e ↔ ∃ call ∈ calls step s bs, step call.1 call.2 = .fault e := by
  rw [feed_fault_iff]
  constructor
  · rintro ⟨as, b, rest, u, rfl, ha, hb⟩
    exact ⟨(u, b), mem_calls_iff.mpr ⟨as, rest, rfl, ha⟩, hb⟩
  · rintro ⟨⟨u, b⟩, hmem, hb⟩
    obtain ⟨as, rest, rfl, ha⟩ := mem_calls_iff.mp hmem
    exact ⟨as, b, rest, u, rfl, ha, hb⟩

/-- Invariant rule over the steps made: the state after a word without a verdict. -/
theorem feed_more_of_calls {P : σ → Prop} {s t : σ} {bs : List β} (start : P s)
    (next : ∀ u b v, (u, b) ∈ calls step s bs → P u → step u b = .next v → P v)
    (h : feed step s bs = .more t) : P t := by
  have reached : feed step s bs = .more t ∧ P t := by
    refine feed_more_induction (P := fun as u => feed step s as = .more u ∧ P u)
      ⟨rfl, start⟩ ?_ h
    rintro as b u v ⟨cs, rfl⟩ ⟨hu, pu⟩ hb
    have called : (u, b) ∈ calls step s (as ++ [b] ++ cs) :=
      mem_calls_iff.mpr ⟨as, cs, by simp, hu⟩
    exact ⟨by rw [feed_append_of_more hu, feed_cons_next hb, feed_nil], next u b v called pu hb⟩
  exact reached.2

def Throughout (step : Machine σ β ω ε) (P : σ → Prop) (s : σ) (bs : List β) : Prop :=
  ∀ as t, as <+: bs → feed step s as = .more t → P t

theorem throughout_cons {P : σ → Prop} {s : σ} {b : β} {bs : List β} (hs : P s)
    (hb : ∀ t, step s b = .next t → Throughout step P t bs) : Throughout step P s (b :: bs) := by
  intro as u pre hu
  cases as with
  | nil =>
      injection hu with hu
      rwa [← hu]
  | cons a as =>
      obtain ⟨rfl, pre'⟩ := List.cons_prefix_cons.mp pre
      cases ha : step s a with
      | next t =>
          rw [feed_cons_next ha] at hu
          exact hb t ha as u pre' hu
      | stop r t => simp [feed, ha] at hu
      | fault e => simp [feed, ha] at hu

theorem Throughout.append {P : σ → Prop} {s t : σ} {as bs : List β}
    (ha : Throughout step P s as) (h : feed step s as = .more t)
    (hb : Throughout step P t bs) : Throughout step P s (as ++ bs) := by
  intro cs u pre hu
  rcases List.prefix_or_prefix_of_prefix pre (List.prefix_append as bs) with hcs | ⟨ds, rfl⟩
  · exact ha cs u hcs hu
  · rw [feed_append_of_more h] at hu
    exact hb ds u ((List.prefix_append_right_inj as).mp pre) hu

end Wnza.Foundation.Feed
