/- GID: Wnza/Config/Brackets
   generality: I
   source: src/config_parser.cc (NginxConfigParser::Parse)
   digest: The block stack of the parser, its bracket count, and the texts that empty it. -/

import Wnza.Config.Parser

set_option autoImplicit false
set_option relaxedAutoImplicit false

namespace Wnza.Config.Brackets

open Wnza.Http.Text
open Wnza.Config.Lexer
open Wnza.Config.Parser
open Wnza.Config.Tree

/-- The input that is left and the variables of `Parse` whenever its loop begins a pass. -/
inductive Visits (text : Bytes) : Bytes → Progress → Prop
  | start : Visits text text .start
  | next {input : Bytes} {p q : Progress} (before : Visits text input p)
      (pass : p.step (parseToken .initialWhitespace [] input).type
        (parseToken .initialWhitespace [] input).value = .go q) :
      Visits text (parseToken .initialWhitespace [] input).rest q

/-- No bracket closes more than has been opened, and all that is opened is closed, when so many
brackets are open already. -/
def balancedFrom : Nat → List Token → Bool
  | n, [] => n == 0
  | n, .openBlock :: ts => balancedFrom (n + 1) ts
  | 0, .closeBlock :: _ => false
  | n + 1, .closeBlock :: ts => balancedFrom n ts
  | n, .word _ :: ts => balancedFrom n ts
  | n, .semicolon :: ts => balancedFrom n ts

def Balanced (text : Bytes) : Prop := balancedFrom 0 (tokens text).1 = true

/-- In every pass of the loop `top` and `pop` find a block on the stack, the stack holds one block
more than brackets are open, and a text whose brackets do not match is refused. -/
structure StackSafe (text : Bytes) : Prop where
  defined : ∀ {input : Bytes} {p : Progress}, Visits text input p → ∀ e : Fault,
    p.step (parseToken .initialWhitespace [] input).type
      (parseToken .initialWhitespace [] input).value ≠ .fault e
  depth : ∀ {input : Bytes} {p : Progress}, Visits text input p →
    (p.stack.length : Int) = p.bracketCount + 1 ∧ 0 ≤ p.bracketCount
  refused : ¬ Balanced text → parse text = some (.ok none)

/-- At least one complete statement, and then a bracket that closes no block. -/
def ClosesRoot (ts : List Token) : Prop :=
  ∃ us b vs, Derives us b ∧ us ≠ [] ∧ ts = us ++ .closeBlock :: vs

section Visits

variable {text input : Bytes} {p q : Progress}

private theorem Visits.reached (h : Visits text input p) :
    ∃ us, (tokens text).1 = us ++ (tokens input).1 ∧ Reached us p := by
  induction h with
  | start => exact ⟨[], rfl, .start⟩
  | @next input p q before hstep ih =>
      obtain ⟨us, split, reached⟩ := ih
      cases pass input p with
      | token t left _ same =>
          refine ⟨us ++ [t], ?_, reached.step (same.symm.trans hstep)⟩
          rw [split, left, List.append_assoc, List.singleton_append]
          rfl
      | comment left _ same =>
          obtain rfl := Transition.go.inj (same.symm.trans hstep)
          exact ⟨us, by rw [split, left], reached⟩
      | last _ same =>
          rw [same] at hstep
          obtain fails | ⟨config, accepts, -⟩ := lastStep_cases p (tokens input).2
          · cases fails.symm.trans hstep
          · cases accepts.symm.trans hstep

private theorem Visits.take {t : Token} {ts : List Token} (h : Visits text input p)
    (left : (tokens input).1 = t :: ts)
    (hstep : p.step (tokenType t) (tokenValue t) = .go q) :
    ∃ rest, Visits text rest q ∧ (tokens rest).1 = ts := by
  induction hn : input.length using Nat.strong_induction_on generalizing input with
  | _ n ih =>
      cases pass input p with
      | token u left' _ same =>
          rw [left'] at left
          obtain ⟨rfl, rfl⟩ := List.cons.inj left
          exact ⟨_, .next h (same.trans hstep), rfl⟩
      | comment left' shorter same =>
          rw [hn] at shorter
          rw [left'] at left
          exact ih _ shorter (.next h same) left rfl
      | last none _ => cases left.symm.trans none

private theorem Visits.leads {us vs : List Token} (route : Leads us p q) (h : Visits text input p)
    (left : (tokens input).1 = us ++ vs) : ∃ rest, Visits text rest q := by
  induction route generalizing input with
  | nil p => exact ⟨input, h⟩
  | cons head _ ih =>
      obtain ⟨rest, next, left'⟩ := h.take left head
      exact ih next left'

end Visits

private theorem balancedFrom_words (n : Nat) (ws : List Bytes) (ts : List Token) :
    balancedFrom n (ws.map .word ++ ts) = balancedFrom n ts := by
  induction ws with
  | nil => rfl
  | cons w ws ih => rw [List.map_cons, List.cons_append, balancedFrom, ih]

private theorem balancedFrom_derives {us : List Token} {b : List NginxConfigStatement}
    (h : Derives us b) (n : Nat) (ts : List Token) :
    balancedFrom n (us ++ ts) = balancedFrom n ts := by
  induction h generalizing n ts with
  | nil => rfl
  | simple _ _ ih =>
      rw [List.append_assoc, balancedFrom_words, List.cons_append, balancedFrom, ih]
  | block _ _ _ ihInner ih =>
      rw [List.append_assoc, balancedFrom_words, List.cons_append, balancedFrom,
        List.append_assoc, ihInner, List.cons_append, balancedFrom, ih]

private theorem balanced_of_accepted {text : Bytes} {config : NginxConfig}
    (h : parse text = some (.ok (some config))) : Balanced text := by
  have flat := balancedFrom_derives (parse_accepts_iff.mp h).2 0 []
  rw [List.append_nil] at flat
  exact flat

private theorem closesRoot_of_underflow {ts : List Token} (h : Underflow ts) : ClosesRoot ts := by
  obtain ⟨us, b, t, vs, hus, hne, -, rfl⟩ := h
  exact ⟨us, b, t :: vs, hus, hne, rfl⟩

private theorem depth_of_reached {ts vs : List Token} {p : Progress} (h : Reached ts p)
    (kept : ¬ ClosesRoot (ts ++ vs)) :
    (p.stack.length : Int) = p.bracketCount + 1 ∧ 0 ≤ p.bracketCount := by
  cases h with
  | between => simp
  | inside => simp
  | @below us b complete hus =>
      rw [List.append_assoc, List.singleton_append] at kept
      exact absurd ⟨us, b, vs, complete, hus, rfl⟩ kept

private theorem Visits.defined {text input : Bytes} {p : Progress} (h : Visits text input p)
    (kept : ¬ ClosesRoot (tokens text).1) (e : Fault) :
    p.step (parseToken .initialWhitespace [] input).type
      (parseToken .initialWhitespace [] input).value ≠ .fault e := by
  intro hfault
  obtain ⟨us, split, reached⟩ := h.reached
  cases pass input p with
  | token t left _ same =>
      have underflow := (reached.fault (same.symm.trans hfault)
        (tokens (parseToken .initialWhitespace [] input).rest).1).2
      rw [left] at split
      exact kept (closesRoot_of_underflow (split ▸ underflow))
  | comment _ _ same => cases same.symm.trans hfault
  | last _ same =>
      rw [same] at hfault
      obtain fails | ⟨config, accepts, -⟩ := lastStep_cases p (tokens input).2
      · cases fails.symm.trans hfault
      · cases accepts.symm.trans hfault

/-- `Parse` keeps its stack exactly on the texts in which no bracket closes the outermost block
behind complete statements. -/
theorem stackSafe_iff (text : Bytes) : StackSafe text ↔ ¬ ClosesRoot (tokens text).1 := by
  constructor
  · rintro safe ⟨us, b, vs, hus, hne, split⟩
    -- the loop gets as far as the bracket, and then counts one bracket less than none
    obtain ⟨rest, emptied⟩ := Visits.start.leads (leads_closeRoot hus hne)
      (by rw [split, List.append_cons])
    have := (safe.depth emptied).2
    simp at this
  · intro kept
    refine ⟨fun h e => Visits.defined h kept e, ?_, ?_⟩
    · intro input p h
      obtain ⟨us, split, reached⟩ := h.reached
      exact depth_of_reached reached (by rwa [← split])
    · intro unbalanced
      cases hrun : run (tokens text).2 (tokens text).1 .start with
      | error f =>
          have underflow := ((run_sound Reached.start).2 f hrun).2
          exact absurd (closesRoot_of_underflow underflow) kept
      | ok result =>
          cases result with
          | none => rw [parse_eq, hrun]
          | some config => exact absurd (balanced_of_accepted (by rw [parse_eq, hrun])) unbalanced

/-- A bracket too many, and the stack is empty when it is needed again. -/
theorem not_stackSafe_second_bracket :
    parse (lit "line;\x7d\x7d") = some (.error .undefinedBehaviour) ∧
      ¬ StackSafe (lit "line;\x7d\x7d") := by
  have fault : parse (lit "line;\x7d\x7d") = some (.error .undefinedBehaviour) := rfl
  refine ⟨fault, fun safe => ?_⟩
  have unbalanced : ¬ Balanced (lit "line;\x7d\x7d") := by
    rw [Balanced]
    decide
  cases Option.some.inj (fault.symm.trans (safe.refused unbalanced))

end Wnza.Config.Brackets
