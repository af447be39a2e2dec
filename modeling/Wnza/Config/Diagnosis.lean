/- GID: Wnza/Config/Diagnosis
   generality: I
   source: src/config_parser.cc (NginxConfigParser::Parse, TokenTypeAsString)
   digest: The message about a rejected configuration, and the token that it is about. -/

import Wnza.Config.Parser

set_option autoImplicit false
set_option relaxedAutoImplicit false

namespace Wnza.Config.Diagnosis

open Wnza.Http.Text
open Wnza.Config.Lexer
open Wnza.Config.Tree
open Wnza.Config.Parser

def tokenTypeAsString : TokenType → Bytes
  | .start => lit "TOKEN_TYPE_START"
  | .normal => lit "TOKEN_TYPE_NORMAL"
  | .startBlock => lit "TOKEN_TYPE_START_BLOCK"
  | .endBlock => lit "TOKEN_TYPE_END_BLOCK"
  | .comment => lit "TOKEN_TYPE_COMMENT"
  | .statementEnd => lit "TOKEN_TYPE_STATEMENT_END"
  | .eof => lit "TOKEN_TYPE_EOF"
  | .error => lit "TOKEN_TYPE_ERROR"

/-- What is printed before `return false`. -/
def badTransition (last type : TokenType) : Bytes :=
  lit "Bad transition from " ++ tokenTypeAsString last ++ lit " to " ++ tokenTypeAsString type ++
    lit "\n"

/-- The output of the loop of `Parse`, for at most so many passes. -/
def printLoop : Nat → Bytes → Progress → Bytes
  | 0, _, _ => []
  | n + 1, input, p =>
      let read := parseToken .initialWhitespace [] input
      match p.step read.type read.value with
      | .go q => printLoop n read.rest q
      | .fail => badTransition p.last read.type
      | .accept _ => []
      | .fault _ => []

/-- The output of `Parse`. -/
def printed (text : Bytes) : Bytes := printLoop (text.length + 1) text .start

/-- Some configuration begins with these tokens. -/
def Viable (ts : List Token) : Prop := ∃ vs b, Derives (ts ++ vs) b

/-- Complete statements, and a bracket that closes no block. -/
def Overclosed (ts : List Token) : Prop :=
  ∃ us b, Derives us b ∧ us ≠ [] ∧ ts = us ++ [.closeBlock]

def lastKind (ts : List Token) : TokenType := (ts.getLast?.map tokenType).getD .start

/-- The message about a rejected text.  The tokens before the one it names begin a configuration,
apart from a bracket too many that nobody has noticed, and with the one it names they do not. -/
inductive Diagnosed (text : Bytes) : Prop
  | token (us vs : List Token) (t : Token) (split : (tokens text).1 = us ++ t :: vs)
      (before : Viable us ∨ Overclosed us) (stuck : ¬ Viable (us ++ [t]))
      (message : printed text = badTransition (lastKind us) (tokenType t))
  | incomplete (closed : (tokens text).2 ≠ .unclosed)
      (before : Viable (tokens text).1 ∨ Overclosed (tokens text).1)
      (stuck : ¬ ∃ b, Derives (tokens text).1 b)
      (message : printed text = badTransition (lastKind (tokens text).1) .eof)
  | unclosed (opened : (tokens text).2 = .unclosed)
      (before : Viable (tokens text).1 ∨ Overclosed (tokens text).1)
      (message : printed text = badTransition (lastKind (tokens text).1) .error)

section Viability

variable {ts us vs : List Token} {fs : List (List NginxConfigStatement)}
  {b : List NginxConfigStatement} {p q : Progress} {t : Token} {e : Ending}

private theorem viable_around (outer : Around ts fs) (complete : Derives us b) :
    Viable (ts ++ us) := by
  induction outer generalizing us b with
  | root => exact ⟨[], b, by simpa using complete⟩
  | @nested ts vs fs c ws outer complete' hws ih =>
      have whole : Derives (vs ++ (ws.map .word ++ .openBlock :: (us ++ .closeBlock :: [])))
          (c ++ [.mk ws (some b)]) := complete'.append (.block hws complete .nil)
      obtain ⟨rest, d, closed⟩ := ih whole
      exact ⟨.closeBlock :: rest, d, by simpa using closed⟩

private theorem viable_of_append (h : Viable (ts ++ us)) : Viable ts := by
  obtain ⟨vs, b, derives⟩ := h
  exact ⟨us ++ vs, b, by rwa [← List.append_assoc]⟩

private theorem viable_of_reached (h : Reached ts p) : Viable ts ∨ Overclosed ts := by
  cases h with
  | between outer complete ready first => exact .inl (viable_around outer complete)
  | @inside ts us fs b ws outer complete hws =>
      left
      have whole : Derives (us ++ (ws.map .word ++ .semicolon :: [])) (b ++ [.mk ws none]) :=
        complete.append (.simple hws .nil)
      have viable := viable_around outer whole
      exact @viable_of_append _ [.semicolon] (by simpa using viable)
  | below complete hus => exact .inr ⟨_, _, complete, hus, rfl⟩

private theorem not_viable_of_fail (h : Leads us .start p)
    (fails : p.step (tokenType t) (tokenValue t) = .fail) : ¬ Viable (us ++ [t]) := by
  rintro ⟨vs, b, derives⟩
  have accepts := run_complete (e := .done) derives (by simp)
  rw [List.append_assoc, List.singleton_append, h.run, run, fails] at accepts
  cases accepts

private theorem not_derives_of_fail (h : Leads us .start p) (closed : e ≠ .unclosed)
    (fails : p.lastStep e = .fail) : ¬ ∃ b, Derives us b := by
  rintro ⟨b, derives⟩
  have accepts := run_complete derives closed
  have stops := h.run (e := e) []
  rw [List.append_nil, accepts, run_nil_eq, fails] at stops
  cases stops

private theorem step_last (h : p.step (tokenType t) (tokenValue t) = .go q) :
    q.last = tokenType t := by
  cases t with
  | word w =>
      simp only [Progress.step, tokenType] at h
      split at h
      · split at h
        · cases h
        · split at h
          · cases h
          · obtain rfl := Transition.go.inj h
            rfl
      · cases h
  | semicolon =>
      simp only [Progress.step, tokenType] at h
      split at h
      · cases h
      · obtain rfl := Transition.go.inj h
        rfl
  | openBlock =>
      simp only [Progress.step, tokenType] at h
      split at h
      · cases h
      · split at h
        · cases h
        · split at h
          · cases h
          · obtain rfl := Transition.go.inj h
            rfl
  | closeBlock =>
      simp only [Progress.step, tokenType] at h
      split at h
      · cases h
      · split at h
        · cases h
        · obtain rfl := Transition.go.inj h
          rfl

private theorem lastKind_concat (t : Token) : lastKind (us ++ [t]) = tokenType t := by
  simp [lastKind]

end Viability

section Messages

variable {ts us : List Token} {p : Progress} {e : Ending} {input : Bytes} {n : Nat}

def endKind (e : Ending) : TokenType := if e = .unclosed then .error else .eof

def sayTokens (e : Ending) : List Token → Progress → Bytes
  | [], p =>
      match p.lastStep e with
      | .fail => badTransition p.last (endKind e)
      | _ => []
  | t :: ts, p =>
      match p.step (tokenType t) (tokenValue t) with
      | .go q => sayTokens e ts q
      | .fail => badTransition p.last (tokenType t)
      | _ => []

private theorem printLoop_eq (hn : input.length < n) (p : Progress) :
    printLoop n input p = sayTokens (tokens input).2 (tokens input).1 p := by
  induction n generalizing input p with
  | zero => omega
  | succ n ih =>
      rw [printLoop]
      have read := returned_parseToken input .initialWhitespace [] (fun _ => rfl)
      have shorter : (parseToken .initialWhitespace [] input).type ≠ .eof →
          (parseToken .initialWhitespace [] input).rest.length < input.length := by
        intro more
        cases input with
        | nil => exact absurd rfl more
        | cons c w => exact parseToken_rest_lt c w []
      change Returned _ (tokens input) at read
      generalize hs : tokens input = s at read ⊢
      generalize parseToken .initialWhitespace [] input = r at read shorter ⊢
      have token : ∀ (t : Token) (v rest : Bytes), rest.length < input.length →
          (match p.step (tokenType t) v with
            | .go q => printLoop n rest q
            | .fail => badTransition p.last (tokenType t)
            | .accept _ => []
            | .fault _ => []) =
          match p.step (tokenType t) v with
            | .go q => sayTokens (tokens rest).2 (tokens rest).1 q
            | .fail => badTransition p.last (tokenType t)
            | _ => [] := by
        intro t v rest hrest
        cases p.step (tokenType t) v with
        | go q => exact ih (by omega) q
        | _ => rfl
      cases read with
      | word w rest => exact token (.word w) w rest (shorter (by simp))
      | openBlock v rest =>
          simp only [prepend, sayTokens]
          rw [step_value p (by simp) v []]
          exact token .openBlock [] rest (shorter (by simp))
      | closeBlock v rest =>
          simp only [prepend, sayTokens]
          rw [step_value p (by simp) v []]
          exact token .closeBlock [] rest (shorter (by simp))
      | semicolon v rest =>
          simp only [prepend, sayTokens]
          rw [step_value p (by simp) v []]
          exact token .semicolon [] rest (shorter (by simp))
      | comment v rest =>
          have fewer := shorter (by simp)
          exact ih (by omega) p
      | @eof v e he =>
          have last : p.step .eof v = p.lastStep e := by
            rw [Progress.lastStep, if_neg he]
            exact step_value p (by simp) v []
          simp only [sayTokens, endKind, if_neg he, last]
          obtain fails | ⟨config, accepts, -⟩ := lastStep_cases p e
          · rw [fails]
          · rw [accepts]
      | error v => rfl

/-- Where the loop over the tokens stops, and what it says. -/
inductive Stopped (e : Ending) (ts : List Token) (message : Bytes) : Prop
  | token (us vs : List Token) (t : Token) (split : ts = us ++ t :: vs)
      (before : Viable us ∨ Overclosed us) (stuck : ¬ Viable (us ++ [t]))
      (said : message = badTransition (lastKind us) (tokenType t))
  | last (before : Viable ts ∨ Overclosed ts) (stuck : e ≠ .unclosed → ¬ ∃ b, Derives ts b)
      (said : message = badTransition (lastKind ts) (endKind e))

private theorem stopped_of_run (leads : Leads us .start p) (reached : Reached us p)
    (kind : p.last = lastKind us) (rejects : run e ts p = .ok none) :
    Stopped e (us ++ ts) (sayTokens e ts p) := by
  induction ts generalizing us p with
  | nil =>
      rw [List.append_nil]
      have fails : p.lastStep e = .fail := by
        obtain fails | ⟨config, accepts, -⟩ := lastStep_cases p e
        · exact fails
        · rw [run_nil_eq, accepts] at rejects
          cases rejects
      refine .last (viable_of_reached reached)
        (fun closed => not_derives_of_fail leads closed fails) ?_
      rw [sayTokens, fails, kind]
  | cons t ts ih =>
      rw [run] at rejects
      cases hstep : p.step (tokenType t) (tokenValue t) with
      | go q =>
          rw [hstep] at rejects
          have next := ih (leads.append (.cons hstep (.nil q))) (reached.step hstep)
            ((step_last hstep).trans (lastKind_concat t).symm) rejects
          rw [List.append_assoc, List.singleton_append] at next
          simpa only [sayTokens, hstep] using next
      | fail =>
          refine .token us ts t rfl (viable_of_reached reached) (not_viable_of_fail leads hstep) ?_
          simp only [sayTokens, hstep, kind]
      | accept config => exact absurd hstep (step_ne_accept p t config)
      | fault f =>
          rw [hstep] at rejects
          cases rejects

end Messages

/-- Every rejected text is diagnosed at the first token with which it stops being the beginning of
a configuration, or at its end. -/
theorem rejection_diagnosed (text : Bytes) (rejected : parse text = some (.ok none)) :
    Diagnosed text := by
  rw [parse_eq, Option.some.injEq] at rejected
  have output : printed text = sayTokens (tokens text).2 (tokens text).1 .start :=
    printLoop_eq (Nat.lt_succ_self _) .start
  have stopped := stopped_of_run (.nil .start) .start rfl rejected
  rw [List.nil_append, ← output] at stopped
  cases stopped with
  | token us vs t split before stuck said => exact .token us vs t split before stuck said
  | last before stuck said =>
      by_cases closed : (tokens text).2 = .unclosed
      · rw [endKind, if_pos closed] at said
        exact .unclosed closed before said
      · rw [endKind, if_neg closed] at said
        exact .incomplete closed before (stuck closed) said

theorem rejection_diagnosed_semicolon :
    parse (lit "port 80;;") = some (.ok none) ∧ Diagnosed (lit "port 80;;") ∧
      printed (lit "port 80;;") =
        lit "Bad transition from TOKEN_TYPE_STATEMENT_END to TOKEN_TYPE_STATEMENT_END\n" := by
  have rejected : parse (lit "port 80;;") = some (.ok none) := rfl
  exact ⟨rejected, rejection_diagnosed _ rejected, by decide⟩

end Wnza.Config.Diagnosis
