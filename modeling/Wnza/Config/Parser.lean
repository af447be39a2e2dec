/- GID: Wnza/Config/Parser
   generality: I
   source: src/config_parser.cc (NginxConfigParser::Parse)
   digest: The configuration parser, its grammar, and the token sequences it accepts. -/

import Wnza.Config.Lexer
import Wnza.Config.Tree

set_option autoImplicit false
set_option relaxedAutoImplicit false

namespace Wnza.Config.Parser

open Wnza.Http.Text
open Wnza.Config.Lexer
open Wnza.Config.Tree

/-- The variables of `Parse`.  The stack of pointers to nested blocks is kept as the statements
of these blocks, innermost first; each block below the first one ends in the statement whose
child block is the one above it. -/
structure Progress where
  stack : List (List NginxConfigStatement)
  last : TokenType
  bracketCount : Int

def Progress.start : Progress := ⟨[[]], .start, 0⟩

/-- What one token leads to: another pass of the loop, `return false`, `return true` with the
configuration read, or an access whose behaviour is undefined. -/
inductive Transition
  | go (p : Progress)
  | fail
  | accept (config : NginxConfig)
  | fault (e : Fault)

def pushToken (token : Bytes) : NginxConfigStatement → NginxConfigStatement
  | .mk tokens block => .mk (tokens ++ [token]) block

def setBlock (block : List NginxConfigStatement) : NginxConfigStatement → NginxConfigStatement
  | .mk tokens _ => .mk tokens (some block)

/-- `statements_.back()` with a change; there is none in an empty block. -/
def changeBack (f : NginxConfigStatement → NginxConfigStatement)
    (statements : List NginxConfigStatement) : Option (List NginxConfigStatement) :=
  statements.getLast?.map (fun s => statements.dropLast ++ [f s])

def embed (inner outer : List NginxConfigStatement) : List NginxConfigStatement :=
  (changeBack (setBlock inner) outer).getD outer

def closeInner (top : List NginxConfigStatement) :
    List (List NginxConfigStatement) → List (List NginxConfigStatement)
  | [] => []
  | outer :: below => embed top outer :: below

def rootOf : List (List NginxConfigStatement) → List NginxConfigStatement
  | [] => []
  | top :: below => below.foldl embed top

/-- One pass of the loop after `ParseToken` has returned. -/
def Progress.step (p : Progress) (type : TokenType) (token : Bytes) : Transition :=
  match type with
  | .error => .fail
  | .comment => .go p
  | .start => .fail
  | .normal =>
      if p.last = .start ∨ p.last = .statementEnd ∨ p.last = .startBlock ∨ p.last = .endBlock ∨
          p.last = .normal then
        match p.stack with
        | [] => .fault .undefinedBehaviour
        | top :: below =>
            match changeBack (pushToken token)
                (if p.last ≠ .normal then top ++ [.mk [] none] else top) with
            | none => .fault .undefinedBehaviour
            | some top => .go ⟨top :: below, .normal, p.bracketCount⟩
      else .fail
  | .statementEnd => if p.last ≠ .normal then .fail else .go { p with last := .statementEnd }
  | .startBlock =>
      if p.last ≠ .normal then .fail
      else
        match p.stack with
        | [] => .fault .undefinedBehaviour
        | top :: below =>
            match changeBack (setBlock []) top with
            | none => .fault .undefinedBehaviour
            | some top => .go ⟨[] :: top :: below, .startBlock, p.bracketCount + 1⟩
  | .endBlock =>
      if p.last ≠ .statementEnd ∧ p.last ≠ .startBlock ∧ p.last ≠ .endBlock then .fail
      else
        match p.stack with
        | [] => .fault .undefinedBehaviour
        | top :: below => .go ⟨closeInner top below, .endBlock, p.bracketCount - 1⟩
  | .eof =>
      if p.last ≠ .statementEnd ∧ p.last ≠ .endBlock ∧ p.last ≠ .start then .fail
      else if p.bracketCount ≠ 0 then .fail
      else .accept ⟨rootOf p.stack⟩

/-- The loop of `Parse`, for at most so many passes. -/
def parseLoop : Nat → Bytes → Progress → Option (Except Fault (Option NginxConfig))
  | 0, _, _ => none
  | n + 1, input, p =>
      let read := parseToken .initialWhitespace [] input
      match p.step read.type read.value with
      | .go q => parseLoop n read.rest q
      | .fail => some (.ok none)
      | .accept config => some (.ok (some config))
      | .fault e => some (.error e)

/-- `Parse` into an empty configuration: `some config` for `true`, `none` for `false`.  Every
pass but the last reads at least one byte, so these passes are enough. -/
def parse (text : Bytes) : Option (Except Fault (Option NginxConfig)) :=
  parseLoop (text.length + 1) text .start

/-- `config ::= statement*`, `statement ::= word+ ( ';' | '{' config '}' )`, with the tree of
each derivation. -/
inductive Derives : List Token → List NginxConfigStatement → Prop
  | nil : Derives [] []
  | simple {ws : List Bytes} {ts : List Token} {b : List NginxConfigStatement} (hws : ws ≠ [])
      (rest : Derives ts b) :
      Derives (ws.map .word ++ .semicolon :: ts) (.mk ws none :: b)
  | block {ws : List Bytes} {us ts : List Token} {c b : List NginxConfigStatement} (hws : ws ≠ [])
      (inner : Derives us c) (rest : Derives ts b) :
      Derives (ws.map .word ++ .openBlock :: (us ++ .closeBlock :: ts)) (.mk ws (some c) :: b)

/-- Complete statements, a bracket that closes no block, and a token for which the block stack
is needed again. -/
def Underflow (ts : List Token) : Prop :=
  ∃ us b t vs, Derives us b ∧ us ≠ [] ∧ (t = .closeBlock ∨ ∃ w, t = .word w) ∧
    ts = us ++ .closeBlock :: t :: vs

def tokenType : Token → TokenType
  | .word _ => .normal
  | .semicolon => .statementEnd
  | .openBlock => .startBlock
  | .closeBlock => .endBlock

def tokenValue : Token → Bytes
  | .word w => w
  | _ => []

def Transition.continue (k : Progress → Except Fault (Option NginxConfig)) :
    Transition → Except Fault (Option NginxConfig)
  | .go p => k p
  | .fail => .ok none
  | .accept config => .ok (some config)
  | .fault e => .error e

/-- The loop over a sequence of tokens. -/
def run (e : Ending) : List Token → Progress → Except Fault (Option NginxConfig)
  | [], p => (p.step (if e = .unclosed then .error else .eof) []).continue (fun _ => .ok none)
  | t :: ts, p => (p.step (tokenType t) (tokenValue t)).continue (run e ts)

/-- A sequence of tokens that leads the loop from one state to another. -/
inductive Leads : List Token → Progress → Progress → Prop
  | nil (p : Progress) : Leads [] p p
  | cons {t : Token} {ts : List Token} {p q r : Progress}
      (head : p.step (tokenType t) (tokenValue t) = .go q) (tail : Leads ts q r) :
      Leads (t :: ts) p r

theorem Leads.append {us vs : List Token} {p q r : Progress} (h : Leads us p q)
    (h' : Leads vs q r) : Leads (us ++ vs) p r := by
  induction h with
  | nil p => exact h'
  | cons head _ ih => exact .cons head (ih h')

theorem Leads.run {e : Ending} {us : List Token} {p q : Progress} (h : Leads us p q)
    (ts : List Token) : run e (us ++ ts) p = run e ts q := by
  induction h with
  | nil p => rfl
  | cons head _ ih =>
      rw [List.cons_append, Parser.run, head, Transition.continue]
      exact ih

theorem step_value (p : Progress) {type : TokenType} (h : type ≠ .normal) (v v' : Bytes) :
    p.step type v = p.step type v' := by
  cases type with
  | normal => exact absurd rfl h
  | _ => rfl

def Progress.lastStep (p : Progress) (e : Ending) : Transition :=
  p.step (if e = .unclosed then .error else .eof) []

theorem run_nil_eq (e : Ending) (p : Progress) :
    run e [] p = (p.lastStep e).continue (fun _ => .ok none) :=
  rfl

theorem lastStep_cases (p : Progress) (e : Ending) :
    p.lastStep e = .fail ∨
      ∃ config, p.lastStep e = .accept config ∧ p.step .eof [] = .accept config ∧
        e ≠ .unclosed := by
  by_cases he : e = .unclosed
  · left
    rw [Progress.lastStep, if_pos he]
    rfl
  · simp only [Progress.lastStep, if_neg he]
    cases hstep : p.step .eof [] with
    | accept config => exact .inr ⟨config, rfl, rfl, he⟩
    | fail => exact .inl rfl
    | go q =>
        simp only [Progress.step] at hstep
        split_ifs at hstep
    | fault f =>
        simp only [Progress.step] at hstep
        split_ifs at hstep

/-- What a pass does with the tokens that are left, when `ParseToken` returns `r`: it takes one,
it skips a comment, or it is the last one. -/
inductive Pass (input : Bytes) (p : Progress) (r : Lexed) : Prop
  | token (t : Token) (left : tokens input = prepend t (tokens r.rest))
      (shorter : r.rest.length < input.length)
      (same : p.step r.type r.value = p.step (tokenType t) (tokenValue t))
  | comment (left : tokens input = tokens r.rest) (shorter : r.rest.length < input.length)
      (same : p.step r.type r.value = .go p)
  | last (left : (tokens input).1 = [])
      (same : p.step r.type r.value = p.lastStep (tokens input).2)

theorem pass (input : Bytes) (p : Progress) :
    Pass input p (parseToken .initialWhitespace [] input) := by
  have read := returned_parseToken input .initialWhitespace [] (fun _ => rfl)
  have shorter : (parseToken .initialWhitespace [] input).type ≠ .eof →
      (parseToken .initialWhitespace [] input).rest.length < input.length := by
    intro more
    cases input with
    | nil => exact absurd rfl more
    | cons c w => exact parseToken_rest_lt c w []
  change Returned _ (tokens input) at read
  generalize hs : tokens input = s at read
  generalize parseToken .initialWhitespace [] input = r at read shorter
  cases read with
  | word w rest => exact .token (.word w) hs (shorter (by simp)) rfl
  | openBlock v rest =>
      exact .token .openBlock hs (shorter (by simp)) (step_value p (by simp) v [])
  | closeBlock v rest =>
      exact .token .closeBlock hs (shorter (by simp)) (step_value p (by simp) v [])
  | semicolon v rest =>
      exact .token .semicolon hs (shorter (by simp)) (step_value p (by simp) v [])
  | comment v rest => exact .comment hs (shorter (by simp)) rfl
  | eof v he =>
      refine .last (by rw [hs]) ?_
      rw [hs, Progress.lastStep, if_neg he]
      exact step_value p (by simp) v []
  | error v =>
      refine .last (by rw [hs]) ?_
      rw [hs]
      rfl

private theorem parseLoop_eq {n : Nat} {input : Bytes} (hn : input.length < n) (p : Progress) :
    parseLoop n input p = some (run (tokens input).2 (tokens input).1 p) := by
  induction n generalizing input p with
  | zero => omega
  | succ n ih =>
      rw [parseLoop]
      cases pass input p with
      | token t left shorter same =>
          rw [left, same, prepend, run]
          cases p.step (tokenType t) (tokenValue t) with
          | go q => exact ih (by omega) q
          | fail => rfl
          | accept config => rfl
          | fault e => rfl
      | comment left shorter same =>
          rw [left, same]
          exact ih (by omega) p
      | last left same =>
          rw [left, run_nil_eq, same]
          obtain fails | ⟨config, accepts, -⟩ := lastStep_cases p (tokens input).2
          · rw [fails]
            rfl
          · rw [accepts]
            rfl

theorem parse_eq (text : Bytes) :
    parse text = some (run (tokens text).2 (tokens text).1 .start) :=
  parseLoop_eq (Nat.lt_succ_self _) .start

def Ready (last : TokenType) : Prop :=
  last = .start ∨ last = .statementEnd ∨ last = .startBlock ∨ last = .endBlock

section Steps

variable {f : List NginxConfigStatement} {fs : List (List NginxConfigStatement)} {last : TokenType}
  {n : Int} {ws : List Bytes} {w : Bytes}

@[simp] private theorem changeBack_concat (g : NginxConfigStatement → NginxConfigStatement)
    (s : NginxConfigStatement) : changeBack g (f ++ [s]) = some (f ++ [g s]) := by
  simp [changeBack]

@[simp] private theorem embed_concat (inner : List NginxConfigStatement)
    (block : Option (List NginxConfigStatement)) :
    embed inner (f ++ [.mk ws block]) = f ++ [.mk ws (some inner)] := by
  simp [embed, setBlock]

private theorem step_firstWord (hlast : Ready last) :
    Progress.step ⟨f :: fs, last, n⟩ .normal w =
      .go ⟨(f ++ [.mk [w] none]) :: fs, .normal, n⟩ := by
  rcases hlast with rfl | rfl | rfl | rfl <;> simp [Progress.step, pushToken]

private theorem step_nextWord :
    Progress.step ⟨(f ++ [.mk ws none]) :: fs, .normal, n⟩ .normal w =
      .go ⟨(f ++ [.mk (ws ++ [w]) none]) :: fs, .normal, n⟩ := by
  simp [Progress.step, pushToken]

private theorem step_openBlock :
    Progress.step ⟨(f ++ [.mk ws none]) :: fs, .normal, n⟩ .startBlock [] =
      .go ⟨[] :: (f ++ [.mk ws (some [])]) :: fs, .startBlock, n + 1⟩ := by
  simp [Progress.step, setBlock]

private theorem step_closeBlock (hlast : Ready last) (hstart : last ≠ .start) :
    Progress.step ⟨f :: fs, last, n⟩ .endBlock [] =
      .go ⟨closeInner f fs, .endBlock, n - 1⟩ := by
  rcases hlast with rfl | rfl | rfl | rfl
  · exact absurd rfl hstart
  · simp [Progress.step]
  · simp [Progress.step]
  · simp [Progress.step]

end Steps

/-! Completeness: what the grammar derives is read as its tree. -/

def lastType : NginxConfigStatement → TokenType
  | .mk _ none => .statementEnd
  | .mk _ (some _) => .endBlock

def lastAfter (last : TokenType) (b : List NginxConfigStatement) : TokenType :=
  b.foldl (fun _ s => lastType s) last

section Complete

variable {f : List NginxConfigStatement} {fs : List (List NginxConfigStatement)} {last : TokenType}
  {n : Int} {e : Ending}

private theorem ready_lastAfter (hlast : Ready last) (b : List NginxConfigStatement) :
    Ready (lastAfter last b) := by
  induction b generalizing last with
  | nil => exact hlast
  | cons s b ih =>
      apply ih
      obtain ⟨ws, block⟩ := s
      cases block with
      | none => exact .inr (.inl rfl)
      | some c => exact .inr (.inr (.inr rfl))

private theorem lastAfter_ne {b : List NginxConfigStatement} {type : TokenType}
    (hlast : last ≠ type) (hend : type ≠ .statementEnd) (hblock : type ≠ .endBlock) :
    lastAfter last b ≠ type := by
  induction b generalizing last with
  | nil => exact hlast
  | cons s b ih =>
      apply ih
      obtain ⟨ws, block⟩ := s
      cases block with
      | none => exact Ne.symm hend
      | some c => exact Ne.symm hblock

private theorem leads_moreWords (ws us : List Bytes) :
    Leads (us.map .word) ⟨(f ++ [.mk ws none]) :: fs, .normal, n⟩
      ⟨(f ++ [.mk (ws ++ us) none]) :: fs, .normal, n⟩ := by
  induction us generalizing ws with
  | nil =>
      rw [List.append_nil]
      exact .nil _
  | cons u us ih =>
      have next := ih (ws ++ [u])
      rw [List.append_assoc, List.singleton_append] at next
      exact .cons step_nextWord next

private theorem leads_words {ws : List Bytes} (hlast : Ready last) (hws : ws ≠ []) :
    Leads (ws.map .word) ⟨f :: fs, last, n⟩ ⟨(f ++ [.mk ws none]) :: fs, .normal, n⟩ := by
  obtain ⟨w, ws, rfl⟩ := List.exists_cons_of_ne_nil hws
  exact .cons (step_firstWord hlast) (leads_moreWords [w] ws)

private theorem leads_derives {us : List Token} {b : List NginxConfigStatement} (h : Derives us b)
    (hlast : Ready last) :
    Leads us ⟨f :: fs, last, n⟩ ⟨(f ++ b) :: fs, lastAfter last b, n⟩ := by
  induction h generalizing f fs last n with
  | nil =>
      rw [List.append_nil]
      exact .nil _
  | @simple ws us b hws _ ih =>
      have next := @ih (f ++ [.mk ws none]) fs .statementEnd n (.inr (.inl rfl))
      rw [List.append_assoc, List.singleton_append] at next
      exact (leads_words hlast hws).append (.cons rfl next)
  | @block ws us vs c b hws _ _ ihInner ih =>
      have inner := @ihInner [] ((f ++ [.mk ws (some [])]) :: fs) .startBlock (n + 1)
        (.inr (.inr (.inl rfl)))
      have next := @ih (f ++ [.mk ws (some c)]) fs .endBlock n (.inr (.inr (.inr rfl)))
      have closing : lastAfter .startBlock c ≠ .start :=
        lastAfter_ne (by simp) (by simp) (by simp)
      have close := @step_closeBlock c ((f ++ [.mk ws (some [])]) :: fs) (lastAfter .startBlock c)
        (n + 1) (ready_lastAfter (.inr (.inr (.inl rfl))) c) closing
      rw [List.append_assoc, List.singleton_append] at next
      rw [closeInner, embed_concat, Int.add_sub_cancel] at close
      exact (leads_words hlast hws).append (.cons step_openBlock (inner.append (.cons close next)))

theorem leads_closeRoot {us : List Token} {b : List NginxConfigStatement} (h : Derives us b)
    (hne : us ≠ []) : Leads (us ++ [.closeBlock]) .start ⟨[], .endBlock, -1⟩ := by
  have hb : b ≠ [] := by
    rintro rfl
    cases h
    exact hne rfl
  have closing : lastAfter .start b ≠ .start := by
    obtain ⟨s, b, rfl⟩ := List.exists_cons_of_ne_nil hb
    obtain ⟨ws, block⟩ := s
    cases block with
    | none => exact @lastAfter_ne .statementEnd b .start (by simp) (by simp) (by simp)
    | some c => exact @lastAfter_ne .endBlock b .start (by simp) (by simp) (by simp)
  have close := @step_closeBlock b [] (lastAfter .start b) 0 (ready_lastAfter (.inl rfl) b) closing
  exact (leads_derives h (.inl rfl)).append (.cons close (.nil _))

theorem run_complete {ts : List Token} {b : List NginxConfigStatement} (h : Derives ts b)
    (he : e ≠ .unclosed) : run e ts .start = .ok (some ⟨b⟩) := by
  have read := (@leads_derives [] [] .start 0 ts b h (.inl rfl)).run (e := e) []
  have ready : Ready (lastAfter .start b) := ready_lastAfter (.inl rfl) b
  have notBlock : lastAfter .start b ≠ .startBlock := lastAfter_ne (by simp) (by simp) (by simp)
  rw [List.append_nil] at read
  rw [Progress.start, read, Parser.run, if_neg he]
  rcases ready with h | h | h | h
  · simp [Progress.step, h, Transition.continue, rootOf]
  · simp [Progress.step, h, Transition.continue, rootOf]
  · exact absurd h notBlock
  · simp [Progress.step, h, Transition.continue, rootOf]

private theorem run_underflow {ts : List Token} (h : Underflow ts) :
    run e ts .start = .error .undefinedBehaviour := by
  obtain ⟨us, b, t, vs, hus, hne, ht, rfl⟩ := h
  rw [List.append_cons, (leads_closeRoot hus hne).run]
  rcases ht with rfl | ⟨w, rfl⟩ <;> rfl

end Complete

/-! Soundness: the tokens that lead to each state of the loop. -/

theorem Derives.append {us vs : List Token} {b c : List NginxConfigStatement} (h : Derives us b)
    (h' : Derives vs c) : Derives (us ++ vs) (b ++ c) := by
  induction h with
  | nil => exact h'
  | simple hws _ ih =>
      rw [List.append_assoc, List.cons_append]
      exact .simple hws ih
  | block hws inner _ _ ih =>
      rw [List.append_assoc, List.cons_append, List.append_assoc, List.cons_append]
      exact .block hws inner ih

theorem Derives.word_mem {ts : List Token} {b : List NginxConfigStatement} (h : Derives ts b)
    {s : NginxConfigStatement} (hs : s ∈ b) {w : Bytes} (hw : w ∈ s.tokens) : .word w ∈ ts := by
  induction h with
  | nil => cases hs
  | @simple ws ts b _ _ ih =>
      rcases List.mem_cons.mp hs with rfl | hs
      · simp [show w ∈ ws from hw]
      · simp [ih hs]
  | @block ws us ts c b _ _ _ _ ih =>
      rcases List.mem_cons.mp hs with rfl | hs
      · simp [show w ∈ ws from hw]
      · simp [ih hs]

/-- The tokens before the current block, and the statements of the blocks around it. -/
inductive Around : List Token → List (List NginxConfigStatement) → Prop
  | root : Around [] []
  | nested {ts us : List Token} {fs : List (List NginxConfigStatement)}
      {b : List NginxConfigStatement} {ws : List Bytes} (outer : Around ts fs)
      (complete : Derives us b) (hws : ws ≠ []) :
      Around (ts ++ us ++ ws.map .word ++ [.openBlock]) ((b ++ [.mk ws (some [])]) :: fs)

/-- The state of the loop after these tokens: between statements, inside one, or behind a
bracket that closes no block. -/
inductive Reached : List Token → Progress → Prop
  | between {ts us : List Token} {fs : List (List NginxConfigStatement)}
      {b : List NginxConfigStatement} {last : TokenType} (outer : Around ts fs)
      (complete : Derives us b) (ready : Ready last) (first : us = [] → fs = [] → last = .start) :
      Reached (ts ++ us) ⟨b :: fs, last, fs.length⟩
  | inside {ts us : List Token} {fs : List (List NginxConfigStatement)}
      {b : List NginxConfigStatement} {ws : List Bytes} (outer : Around ts fs)
      (complete : Derives us b) (hws : ws ≠ []) :
      Reached (ts ++ us ++ ws.map .word) ⟨(b ++ [.mk ws none]) :: fs, .normal, fs.length⟩
  | below {us : List Token} {b : List NginxConfigStatement} (complete : Derives us b)
      (hus : us ≠ []) : Reached (us ++ [.closeBlock]) ⟨[], .endBlock, -1⟩

theorem Reached.start : Reached [] .start :=
  .between .root .nil (.inl rfl) (fun _ _ => rfl)

private theorem Reached.close {ts us : List Token} {fs : List (List NginxConfigStatement)}
    {b : List NginxConfigStatement} {last : TokenType} (outer : Around ts fs)
    (complete : Derives us b) (first : us = [] → fs = [] → last = .start)
    (hlast : last ≠ .start) :
    Reached (ts ++ us ++ [.closeBlock]) ⟨closeInner b fs, .endBlock, fs.length - 1⟩ := by
  cases outer with
  | root =>
      have hus : us ≠ [] := fun h => hlast (first h rfl)
      exact .below complete hus
  | @nested ts vs fs c ws outer complete' hws =>
      have whole : Derives (vs ++ (ws.map .word ++ .openBlock :: (us ++ .closeBlock :: [])))
          (c ++ [.mk ws (some b)]) := complete'.append (.block hws complete .nil)
      have step : Reached
          (ts ++ (vs ++ (ws.map .word ++ .openBlock :: (us ++ .closeBlock :: []))))
          ⟨(c ++ [.mk ws (some b)]) :: fs, .endBlock, fs.length⟩ :=
        .between outer whole (.inr (.inr (.inr rfl))) (by simp)
      simpa [closeInner] using step

theorem Reached.step {ts : List Token} {p q : Progress} {t : Token} (h : Reached ts p)
    (hstep : p.step (tokenType t) (tokenValue t) = .go q) : Reached (ts ++ [t]) q := by
  cases h with
  | @between ts us fs b last outer complete ready first =>
      cases t with
      | word w =>
          have go := @step_firstWord b fs last fs.length w ready
          obtain rfl := Transition.go.inj (hstep.symm.trans go)
          exact @Reached.inside ts us fs b [w] outer complete (by simp)
      | semicolon =>
          rcases ready with rfl | rfl | rfl | rfl <;> cases hstep
      | openBlock =>
          rcases ready with rfl | rfl | rfl | rfl <;> cases hstep
      | closeBlock =>
          have hstart : last ≠ .start := by
            rintro rfl
            cases hstep
          have go := @step_closeBlock b fs last fs.length ready hstart
          obtain rfl := Transition.go.inj (hstep.symm.trans go)
          exact .close outer complete first hstart
  | @inside ts us fs b ws outer complete hws =>
      cases t with
      | word w =>
          have go := @step_nextWord b fs fs.length ws w
          obtain rfl := Transition.go.inj (hstep.symm.trans go)
          have more := @Reached.inside ts us fs b (ws ++ [w]) outer complete (by simp)
          simpa using more
      | semicolon =>
          obtain rfl := Transition.go.inj hstep
          have whole : Derives (us ++ (ws.map .word ++ .semicolon :: [])) (b ++ [.mk ws none]) :=
            complete.append (.simple hws .nil)
          have next := @Reached.between _ _ _ _ .statementEnd outer whole (.inr (.inl rfl))
            (by simp)
          simpa using next
      | openBlock =>
          have go := @step_openBlock b fs fs.length ws
          obtain rfl := Transition.go.inj (hstep.symm.trans go)
          have next := @Reached.between _ _ _ _ .startBlock (.nested outer complete hws) .nil
            (.inr (.inr (.inl rfl))) (by simp)
          simpa using next
      | closeBlock => cases hstep
  | below complete hus => cases t <;> cases hstep

theorem Reached.fault {ts : List Token} {p : Progress} {t : Token} {e : Fault} (h : Reached ts p)
    (hstep : p.step (tokenType t) (tokenValue t) = .fault e) (vs : List Token) :
    e = .undefinedBehaviour ∧ Underflow (ts ++ t :: vs) := by
  cases h with
  | @between ts us fs b last outer complete ready first =>
      cases t with
      | word w =>
          have go := @step_firstWord b fs last fs.length w ready
          cases hstep.symm.trans go
      | semicolon =>
          rcases ready with rfl | rfl | rfl | rfl <;> cases hstep
      | openBlock =>
          rcases ready with rfl | rfl | rfl | rfl <;> cases hstep
      | closeBlock =>
          rcases ready with rfl | rfl | rfl | rfl <;> cases hstep
  | @inside ts us fs b ws outer complete hws =>
      cases t with
      | word w =>
          have go := @step_nextWord b fs fs.length ws w
          cases hstep.symm.trans go
      | semicolon => cases hstep
      | openBlock =>
          have go := @step_openBlock b fs fs.length ws
          cases hstep.symm.trans go
      | closeBlock => cases hstep
  | @below us b complete hus =>
      rw [List.append_assoc, List.singleton_append]
      cases t with
      | word w =>
          obtain rfl := Transition.fault.inj hstep
          exact ⟨rfl, us, b, .word w, vs, complete, hus, .inr ⟨w, rfl⟩, rfl⟩
      | semicolon => cases hstep
      | openBlock => cases hstep
      | closeBlock =>
          obtain rfl := Transition.fault.inj hstep
          exact ⟨rfl, us, b, .closeBlock, vs, complete, hus, .inl rfl, rfl⟩

private theorem Reached.accept {ts : List Token} {p : Progress} {config : NginxConfig}
    (h : Reached ts p) (hstep : p.step .eof [] = .accept config) :
    Derives ts config.statements := by
  simp only [Progress.step] at hstep
  split_ifs at hstep with hlast hcount
  obtain rfl := Transition.accept.inj hstep
  cases h with
  | @between ts us fs b last outer complete ready first =>
      cases outer with
      | root => exact complete
      | nested => simp at hcount; omega
  | inside => simp at hlast
  | below => simp at hcount

theorem step_ne_accept (p : Progress) (t : Token) (config : NginxConfig) :
    p.step (tokenType t) (tokenValue t) ≠ .accept config := by
  intro h
  cases t with
  | word w =>
      simp only [Progress.step, tokenType] at h
      split at h
      · split at h
        · cases h
        · split at h <;> cases h
      · cases h
  | semicolon =>
      simp only [Progress.step, tokenType] at h
      split at h <;> cases h
  | openBlock =>
      simp only [Progress.step, tokenType] at h
      split at h
      · cases h
      · split at h
        · cases h
        · split at h <;> cases h
  | closeBlock =>
      simp only [Progress.step, tokenType] at h
      split at h
      · cases h
      · split at h <;> cases h

theorem run_sound {e : Ending} {ts us : List Token} {p : Progress} (h : Reached us p) :
    (∀ config, run e ts p = .ok (some config) →
      e ≠ .unclosed ∧ Derives (us ++ ts) config.statements) ∧
    ∀ f, run e ts p = .error f → f = .undefinedBehaviour ∧ Underflow (us ++ ts) := by
  induction ts generalizing us p with
  | nil =>
      rw [List.append_nil, run_nil_eq]
      obtain fails | ⟨c, accepts, hstep, he⟩ := lastStep_cases p e
      · rw [fails]
        constructor
        · intro config hc
          cases hc
        · intro f hf
          cases hf
      · rw [accepts]
        constructor
        · intro config hc
          obtain rfl := Option.some.inj (Except.ok.inj hc)
          exact ⟨he, h.accept hstep⟩
        · intro f hf
          cases hf
  | cons t ts ih =>
      rw [run]
      cases hstep : p.step (tokenType t) (tokenValue t) with
      | go q =>
          have next := ih (h.step hstep)
          rwa [List.append_assoc, List.singleton_append] at next
      | fail =>
          constructor
          · intro config hc
            cases hc
          · intro f hf
            cases hf
      | accept config => exact absurd hstep (step_ne_accept p t config)
      | fault f =>
          obtain ⟨rfl, underflow⟩ := h.fault hstep ts
          constructor
          · intro config hc
            cases hc
          · intro f hf
            obtain rfl := Except.error.inj hf
            exact ⟨rfl, underflow⟩

theorem parse_accepts_iff {text : Bytes} {config : NginxConfig} :
    parse text = some (.ok (some config)) ↔
      (tokens text).2 ≠ .unclosed ∧ Derives (tokens text).1 config.statements := by
  rw [parse_eq, Option.some.injEq]
  constructor
  · intro h
    exact (run_sound Reached.start).1 config h
  · rintro ⟨he, derives⟩
    exact run_complete derives he

theorem parse_faults_iff {text : Bytes} {f : Fault} :
    parse text = some (.error f) ↔ f = .undefinedBehaviour ∧ Underflow (tokens text).1 := by
  rw [parse_eq, Option.some.injEq]
  constructor
  · intro h
    exact (run_sound Reached.start).2 f h
  · rintro ⟨rfl, underflow⟩
    exact run_underflow underflow

end Wnza.Config.Parser
