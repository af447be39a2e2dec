/- GID: Wnza/Config/Printing
   generality: I
   source: src/config_parser.cc (NginxConfig::ToString, NginxConfigStatement::ToString)
   digest: A printed configuration is read back as the tree it was printed from. -/

import Wnza.Config.Acceptance

set_option autoImplicit false
set_option relaxedAutoImplicit false

namespace Wnza.Config.Printing

open Wnza.Http.Text
open Wnza.Config.Lexer
open Wnza.Config.Parser
open Wnza.Config.Acceptance
open Wnza.Config.Tree

def indent (depth : Nat) : Bytes := (List.replicate depth (lit "  ")).flatten

mutual

def statementToString (depth : Nat) : NginxConfigStatement → Bytes
  | .mk tokens none => indent depth ++ List.intercalate [SP] tokens ++ [SEMICOLON, LF]
  | .mk tokens (some block) =>
      indent depth ++ List.intercalate [SP] tokens ++ [SP, LBRACE, LF] ++
        blockToString (depth + 1) block ++ indent depth ++ [RBRACE, LF]

def blockToString (depth : Nat) : List NginxConfigStatement → Bytes
  | [] => []
  | statement :: rest => statementToString depth statement ++ blockToString depth rest

end

def toString (config : NginxConfig) (depth : Nat) : Bytes := blockToString depth config.statements

/-- The text printed at this depth for the tree of an accepted text. -/
def reprint (depth : Nat) (text : Bytes) : Option Bytes :=
  match parse text with
  | some (.ok (some config)) => some (toString config depth)
  | _ => none

/-- The texts that `ParseToken` returns as words. -/
def IsWord (w : Bytes) : Prop := IsRun endsToken w ∨ IsQuoted w

theorem isWord_of_lexes {text : Bytes} {ts : List Token} {e : Ending}
    (h : Lexes endsToken text ts e) (w : Bytes) (hw : .word w ∈ ts) : IsWord w := by
  induction h with
  | done => cases hw
  | blank _ _ ih => exact ih hw
  | comment _ _ _ ih => exact ih hw
  | lastComment _ => cases hw
  | @punct c t rest ts e hc _ ih =>
      rcases List.mem_cons.mp hw with rfl | hw
      · simp only [punctuation] at hc
        split_ifs at hc <;> cases hc
      · exact ih hw
  | @quoted q body rest ts e hq hbody _ ih =>
      rcases List.mem_cons.mp hw with hw | hw
      · rw [Token.word.inj hw]
        exact .inr ⟨q, body, hq, hbody, rfl⟩
      · exact ih hw
  | unclosed _ _ => cases hw
  | word hrun _ _ ih =>
      rcases List.mem_cons.mp hw with hw | hw
      · rw [Token.word.inj hw]
        exact .inl hrun
      · exact ih hw
  | cut _ => cases hw

section Lexing

variable {rest : Bytes} {us : List Token} {e : Ending}

private theorem lexes_blanks {w : Bytes} (hw : ∀ c ∈ w, isBlank c = true)
    (h : Lexes endsToken rest us e) :
    Lexes endsToken (w ++ rest) us e := by
  induction w with
  | nil => exact h
  | cons c w ih => exact .blank (hw c (by simp)) (ih (fun d hd => hw d (by simp [hd])))

private theorem lexes_indent (depth : Nat) (h : Lexes endsToken rest us e) :
    Lexes endsToken (indent depth ++ rest) us e := by
  refine lexes_blanks (fun c hc => ?_) h
  obtain ⟨pair, hpair, hc⟩ := List.mem_flatten.mp hc
  obtain ⟨-, rfl⟩ := List.mem_replicate.mp hpair
  have space : c = ' '.toUInt8 := by simpa [lit] using hc
  rw [space]
  rfl

private theorem lexes_word {w : Bytes} {c : UInt8} (hw : IsWord w) (hc : endsToken c = true)
    (h : Lexes endsToken (c :: rest) us e) :
    Lexes endsToken (w ++ c :: rest) (.word w :: us) e := by
  rcases hw with hrun | ⟨q, body, hq, hbody, rfl⟩
  · exact .word hrun hc h
  · rw [List.append_assoc, List.singleton_append]
    exact .quoted hq hbody h

private theorem lexes_words {ws : List Bytes} {c : UInt8} (hws : ws ≠ [])
    (words : ∀ w ∈ ws, IsWord w) (hc : endsToken c = true) (h : Lexes endsToken (c :: rest) us e) :
    Lexes endsToken (List.intercalate [SP] ws ++ c :: rest) (ws.map .word ++ us) e := by
  induction ws with
  | nil => exact absurd rfl hws
  | cons w ws ih =>
      have first : IsWord w := words w (by simp)
      cases ws with
      | nil => simpa using lexes_word first hc h
      | cons v ws =>
          have others := ih (by simp) (fun u hu => words u (by simp [hu]))
          have next := lexes_word (c := SP) first rfl (.blank rfl others)
          simpa using next

private theorem lexes_blockToString {ts : List Token} {b : List NginxConfigStatement}
    (h : Derives ts b) (words : ∀ w, .word w ∈ ts → IsWord w) (depth : Nat)
    (behind : Lexes endsToken rest us e) :
    Lexes endsToken (blockToString depth b ++ rest) (ts ++ us) e := by
  induction h generalizing depth rest us with
  | nil => simpa [blockToString] using behind
  | @simple ws ts b hws _ ih =>
      have others := ih (fun w hw => words w (by simp [hw])) depth behind
      have line := lexes_words hws (fun w hw => words w (by simp [hw])) (c := SEMICOLON) rfl
        (.punct rfl (.blank (c := LF) rfl others))
      simpa [blockToString, statementToString] using lexes_indent depth line
  | @block ws vs ts c b hws _ _ ihInner ih =>
      have others := ih (fun w hw => words w (by simp [hw])) depth behind
      have closing :
        Lexes endsToken (indent depth ++ RBRACE :: LF :: (blockToString depth b ++ rest))
          (.closeBlock :: (ts ++ us)) e :=
        lexes_indent depth (.punct rfl (.blank rfl others))
      have inner := ihInner (fun w hw => words w (by simp [hw])) (depth + 1) closing
      have line := lexes_words hws (fun w hw => words w (by simp [hw])) (c := SP) rfl
        (.blank rfl (.punct (c := LBRACE) rfl (.blank (c := LF) rfl inner)))
      simpa [blockToString, statementToString] using lexes_indent depth line

end Lexing

theorem parse_blockToString {ts : List Token} {b : List NginxConfigStatement} (h : Derives ts b)
    (words : ∀ w, .word w ∈ ts → IsWord w) (depth : Nat) :
    parse (blockToString depth b) = some (.ok (some ⟨b⟩)) := by
  have printed := lexes_blockToString h words depth .done
  rw [List.append_nil, List.append_nil] at printed
  have read : tokens (blockToString depth b) = (ts, .done) := lexes_iff.mp printed
  rw [parse_accepts_iff, read]
  exact ⟨by simp, h⟩

/-- The tree of an accepted text, printed at any depth, is accepted again with the same tree. -/
theorem parse_toString {text : Bytes} {config : NginxConfig}
    (accepted : parse text = some (.ok (some config))) (depth : Nat) :
    parse (toString config depth) = some (.ok (some config)) ∧
      reprint depth (toString config depth) = some (toString config depth) := by
  have derives := (parse_accepts_iff.mp accepted).2
  have again : parse (toString config depth) = some (.ok (some config)) :=
    parse_blockToString derives (isWord_of_lexes (lexes_tokens text)) depth
  exact ⟨again, by simp only [reprint, again]⟩

/-- A block, a quoted word with a blank and a semicolon, and an unquoted word with a quote. -/
theorem parse_toString_nested :
    parse (lit "a 'b ;' # c\n\x7b d\"e; \x7d") =
        some (.ok (some ⟨[.mk [lit "a", lit "'b ;'"] (some [.mk [lit "d\"e"] none])]⟩)) ∧
      parse (toString ⟨[.mk [lit "a", lit "'b ;'"] (some [.mk [lit "d\"e"] none])]⟩ 1) =
        some (.ok (some ⟨[.mk [lit "a", lit "'b ;'"] (some [.mk [lit "d\"e"] none])]⟩)) := by
  have accepted : parse (lit "a 'b ;' # c\n\x7b d\"e; \x7d") =
      some (.ok (some ⟨[.mk [lit "a", lit "'b ;'"] (some [.mk [lit "d\"e"] none])]⟩)) := rfl
  exact ⟨accepted, (parse_toString accepted 1).1⟩

end Wnza.Config.Printing
