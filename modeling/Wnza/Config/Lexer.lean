/- GID: Wnza/Config/Lexer
   generality: I
   source: src/config_parser.cc (NginxConfigParser::ParseToken)
   digest: The tokens of a configuration text, one call at a time and as a whole. -/

import Wnza.Http.Text
import Mathlib.Tactic.SplitIfs

set_option autoImplicit false
set_option relaxedAutoImplicit false

namespace Wnza.Config.Lexer

open Wnza.Http.Text

abbrev LBRACE : UInt8 := 123
abbrev RBRACE : UInt8 := 125
abbrev HASH : UInt8 := 35
abbrev QUOTE : UInt8 := 34
abbrev APOSTROPHE : UInt8 := 39
abbrev SEMICOLON : UInt8 := 59

inductive TokenType
  | start | normal | startBlock | endBlock | comment | statementEnd | eof | error
  deriving DecidableEq

inductive TokenParserState
  | initialWhitespace | singleQuote | doubleQuote | comment | normal
  deriving DecidableEq

/-- What one call of `ParseToken` returns, the text it stores and the input it leaves. -/
structure Lexed where
  type : TokenType
  value : Bytes
  rest : Bytes
  deriving DecidableEq

def isBlank (c : UInt8) : Bool := c == SP || c == TAB || c == LF || c == CR

/-- The bytes that end an unquoted token.  The source names the tab twice and the carriage
return not at all. -/
def endsToken (c : UInt8) : Bool :=
  c == SP || c == TAB || c == LF || c == SEMICOLON || c == LBRACE || c == RBRACE

/-- The loop of `ParseToken` from a state and the text stored so far.  The byte behind an
unquoted token is put back. -/
def parseToken (state : TokenParserState) (value : Bytes) : Bytes → Lexed
  | [] => ⟨if state = .singleQuote ∨ state = .doubleQuote then .error else .eof, value, []⟩
  | c :: input =>
      match state with
      | .initialWhitespace =>
          if c = LBRACE then ⟨.startBlock, [c], input⟩
          else if c = RBRACE then ⟨.endBlock, [c], input⟩
          else if c = HASH then parseToken .comment [c] input
          else if c = QUOTE then parseToken .doubleQuote [c] input
          else if c = APOSTROPHE then parseToken .singleQuote [c] input
          else if c = SEMICOLON then ⟨.statementEnd, [c], input⟩
          else if isBlank c then parseToken .initialWhitespace value input
          else parseToken .normal (value ++ [c]) input
      | .singleQuote =>
          if c = APOSTROPHE then ⟨.normal, value ++ [c], input⟩
          else parseToken .singleQuote (value ++ [c]) input
      | .doubleQuote =>
          if c = QUOTE then ⟨.normal, value ++ [c], input⟩
          else parseToken .doubleQuote (value ++ [c]) input
      | .comment =>
          if c = LF ∨ c = CR then ⟨.comment, value, input⟩
          else parseToken .comment (value ++ [c]) input
      | .normal =>
          if endsToken c then ⟨.normal, value, c :: input⟩
          else parseToken .normal (value ++ [c]) input

/-- A token of the grammar. -/
inductive Token
  | word (w : Bytes) | semicolon | openBlock | closeBlock
  deriving DecidableEq

/-- How a text ends: between tokens, inside an unquoted word, or inside a quoted one. -/
inductive Ending
  | done | cut (w : Bytes) | unclosed
  deriving DecidableEq

def beginsWord (c : UInt8) : Bool :=
  !(isBlank c || c == LBRACE || c == RBRACE || c == HASH || c == QUOTE || c == APOSTROPHE ||
    c == SEMICOLON)

def IsRun (ends : UInt8 → Bool) : Bytes → Prop
  | [] => False
  | c :: w => beginsWord c = true ∧ ∀ d ∈ w, ends d = false

/-- The bytes between a quote and the next one, with both. -/
def IsQuoted (w : Bytes) : Prop :=
  ∃ q body, (q = QUOTE ∨ q = APOSTROPHE) ∧ q ∉ body ∧ w = q :: body ++ [q]

def punctuation (c : UInt8) : Option Token :=
  if c = LBRACE then some .openBlock
  else if c = RBRACE then some .closeBlock
  else if c = SEMICOLON then some .semicolon
  else none

/-- The tokens of a text in order, blanks and comments left out, and how the text ends.
An unquoted word is as long as possible. -/
inductive Lexes (ends : UInt8 → Bool) : Bytes → List Token → Ending → Prop
  | done : Lexes ends [] [] .done
  | blank {c : UInt8} {w : Bytes} {ts : List Token} {e : Ending} (hc : isBlank c = true)
      (rest : Lexes ends w ts e) : Lexes ends (c :: w) ts e
  | comment {body : Bytes} {c : UInt8} {w : Bytes} {ts : List Token} {e : Ending}
      (hbody : ∀ d ∈ body, d ≠ LF ∧ d ≠ CR) (hc : c = LF ∨ c = CR) (rest : Lexes ends w ts e) :
      Lexes ends (HASH :: body ++ c :: w) ts e
  | lastComment {body : Bytes} (hbody : ∀ d ∈ body, d ≠ LF ∧ d ≠ CR) :
      Lexes ends (HASH :: body) [] .done
  | punct {c : UInt8} {t : Token} {w : Bytes} {ts : List Token} {e : Ending}
      (hc : punctuation c = some t) (rest : Lexes ends w ts e) : Lexes ends (c :: w) (t :: ts) e
  | quoted {q : UInt8} {body w : Bytes} {ts : List Token} {e : Ending}
      (hq : q = QUOTE ∨ q = APOSTROPHE) (hbody : q ∉ body) (rest : Lexes ends w ts e) :
      Lexes ends (q :: body ++ q :: w) (.word (q :: body ++ [q]) :: ts) e
  | unclosed {q : UInt8} {body : Bytes} (hq : q = QUOTE ∨ q = APOSTROPHE) (hbody : q ∉ body) :
      Lexes ends (q :: body) [] .unclosed
  | word {run : Bytes} {c : UInt8} {w : Bytes} {ts : List Token} {e : Ending}
      (hrun : IsRun ends run) (hc : ends c = true) (rest : Lexes ends (c :: w) ts e) :
      Lexes ends (run ++ c :: w) (.word run :: ts) e
  | cut {run : Bytes} (hrun : IsRun ends run) : Lexes ends run [] (.cut run)

def prepend (t : Token) (r : List Token × Ending) : List Token × Ending := (t :: r.1, r.2)

/-- What the first byte of a token leads to, when `k` reads on from a state. -/
def enter (k : TokenParserState → Bytes → List Token × Ending) (c : UInt8) : List Token × Ending :=
  match punctuation c with
  | some t => prepend t (k .initialWhitespace [])
  | none =>
      if c = HASH then k .comment [c]
      else if c = QUOTE then k .doubleQuote [c]
      else if c = APOSTROPHE then k .singleQuote [c]
      else if isBlank c then k .initialWhitespace []
      else k .normal [c]

def scan (ends : UInt8 → Bool) : TokenParserState → Bytes → Bytes → List Token × Ending
  | .normal, v, [] => ([], .cut v)
  | .singleQuote, _, [] => ([], .unclosed)
  | .doubleQuote, _, [] => ([], .unclosed)
  | .comment, _, [] => ([], .done)
  | .initialWhitespace, _, [] => ([], .done)
  | .initialWhitespace, _, c :: w => enter (fun st v => scan ends st v w) c
  | .singleQuote, v, c :: w =>
      if c = APOSTROPHE then prepend (.word (v ++ [c])) (scan ends .initialWhitespace [] w)
      else scan ends .singleQuote (v ++ [c]) w
  | .doubleQuote, v, c :: w =>
      if c = QUOTE then prepend (.word (v ++ [c])) (scan ends .initialWhitespace [] w)
      else scan ends .doubleQuote (v ++ [c]) w
  | .comment, v, c :: w =>
      if c = LF ∨ c = CR then scan ends .initialWhitespace [] w
      else scan ends .comment (v ++ [c]) w
  | .normal, v, c :: w =>
      if ends c then prepend (.word v) (enter (fun st v => scan ends st v w) c)
      else scan ends .normal (v ++ [c]) w

/-- The tokens that successive calls of `ParseToken` return for a text, comments left out. -/
def tokens (text : Bytes) : List Token × Ending := scan endsToken .initialWhitespace [] text

def Stored (ends : UInt8 → Bool) : TokenParserState → Bytes → Prop
  | .initialWhitespace, v => v = []
  | .singleQuote, v => ∃ body, v = APOSTROPHE :: body ∧ APOSTROPHE ∉ body
  | .doubleQuote, v => ∃ body, v = QUOTE :: body ∧ QUOTE ∉ body
  | .comment, v => ∃ body, v = HASH :: body ∧ ∀ d ∈ body, d ≠ LF ∧ d ≠ CR
  | .normal, v => IsRun ends v

section Scan

variable {ends : UInt8 → Bool}

private theorem IsRun.concat {w : Bytes} {c : UInt8} (hw : IsRun ends w) (hc : ends c = false) :
    IsRun ends (w ++ [c]) := by
  cases w with
  | nil => exact hw.elim
  | cons d w => exact ⟨hw.1, forall_mem_concat hw.2 hc⟩

private theorem lexes_enter {k : TokenParserState → Bytes → List Token × Ending} {c : UInt8}
    {w : Bytes} (read : ∀ st v, Stored ends st v → Lexes ends (v ++ w) (k st v).1 (k st v).2) :
    Lexes ends (c :: w) (enter k c).1 (enter k c).2 := by
  unfold enter
  cases hp : punctuation c with
  | some t => exact .punct hp (read .initialWhitespace [] rfl)
  | none =>
      simp only
      split_ifs with hhash hquote hapos hblank
      · exact read .comment [c] ⟨[], by rw [hhash], by simp⟩
      · exact read .doubleQuote [c] ⟨[], by rw [hquote], by simp⟩
      · exact read .singleQuote [c] ⟨[], by rw [hapos], by simp⟩
      · exact .blank hblank (read .initialWhitespace [] rfl)
      · refine read .normal [c] ⟨?_, by simp⟩
        simp only [punctuation] at hp
        split_ifs at hp with h₁ h₂ h₃
        simp [beginsWord, h₁, h₂, h₃, hhash, hquote, hapos, hblank]

theorem lexes_scan (text : Bytes) (st : TokenParserState) (v : Bytes) (hv : Stored ends st v) :
    Lexes ends (v ++ text) (scan ends st v text).1 (scan ends st v text).2 := by
  induction text generalizing st v with
  | nil =>
      rw [List.append_nil]
      cases st with
      | initialWhitespace =>
          subst hv
          exact .done
      | singleQuote =>
          obtain ⟨body, rfl, hbody⟩ := hv
          exact .unclosed (.inr rfl) hbody
      | doubleQuote =>
          obtain ⟨body, rfl, hbody⟩ := hv
          exact .unclosed (.inl rfl) hbody
      | comment =>
          obtain ⟨body, rfl, hbody⟩ := hv
          exact .lastComment hbody
      | normal => exact .cut hv
  | cons c text ih =>
      cases st with
      | initialWhitespace =>
          subst hv
          exact lexes_enter ih
      | singleQuote =>
          obtain ⟨body, rfl, hbody⟩ := hv
          rw [scan]
          split_ifs with hc
          · subst hc
            exact .quoted (.inr rfl) hbody (ih .initialWhitespace [] rfl)
          · rw [List.append_cons]
            exact ih .singleQuote _ ⟨body ++ [c], rfl, by simp [hbody, Ne.symm hc]⟩
      | doubleQuote =>
          obtain ⟨body, rfl, hbody⟩ := hv
          rw [scan]
          split_ifs with hc
          · subst hc
            exact .quoted (.inl rfl) hbody (ih .initialWhitespace [] rfl)
          · rw [List.append_cons]
            exact ih .doubleQuote _ ⟨body ++ [c], rfl, by simp [hbody, Ne.symm hc]⟩
      | comment =>
          obtain ⟨body, rfl, hbody⟩ := hv
          rw [scan]
          split_ifs with hc
          · exact .comment hbody hc (ih .initialWhitespace [] rfl)
          · rw [List.append_cons]
            exact ih .comment _ ⟨body ++ [c], rfl, forall_mem_concat hbody (not_or.mp hc)⟩
      | normal =>
          rw [scan]
          split_ifs with hc
          · exact .word hv hc (lexes_enter ih)
          · rw [List.append_cons]
            exact ih .normal _ (IsRun.concat hv (by simpa using hc))

private theorem enter_of_beginsWord {k : TokenParserState → Bytes → List Token × Ending} {c : UInt8}
    (hc : beginsWord c = true) : enter k c = k .normal [c] := by
  simp only [beginsWord, Bool.not_eq_true', Bool.or_eq_false_iff, beq_eq_false_iff_ne] at hc
  obtain ⟨⟨⟨⟨⟨⟨hblank, h₁⟩, h₂⟩, hhash⟩, hquote⟩, hapos⟩, h₃⟩ := hc
  simp [enter, punctuation, h₁, h₂, h₃, hhash, hquote, hapos, hblank]

private theorem enter_of_isBlank {k : TokenParserState → Bytes → List Token × Ending} {c : UInt8}
    (hc : isBlank c = true) : enter k c = k .initialWhitespace [] := by
  simp only [isBlank, Bool.or_eq_true, beq_iff_eq] at hc
  rcases hc with ((rfl | rfl) | rfl) | rfl <;> rfl

private theorem scan_run {run : Bytes} (hrun : ∀ d ∈ run, ends d = false) (v w : Bytes) :
    scan ends .normal v (run ++ w) = scan ends .normal (v ++ run) w := by
  induction run generalizing v with
  | nil => simp
  | cons d run ih =>
      rw [List.cons_append, scan, if_neg (by simp [hrun d (by simp)]),
        ih (fun c hc => hrun c (by simp [hc])), List.append_assoc, List.singleton_append]

def quoteState (q : UInt8) : TokenParserState := if q = QUOTE then .doubleQuote else .singleQuote

private theorem scan_quoteState {q : UInt8} (hq : q = QUOTE ∨ q = APOSTROPHE) (v : Bytes)
    (c : UInt8) (w : Bytes) :
    scan ends (quoteState q) v (c :: w) =
      if c = q then prepend (.word (v ++ [c])) (scan ends .initialWhitespace [] w)
      else scan ends (quoteState q) (v ++ [c]) w := by
  rcases hq with rfl | rfl <;> rfl

private theorem scan_quoted {q : UInt8} {body : Bytes} (hq : q = QUOTE ∨ q = APOSTROPHE)
    (hbody : q ∉ body) (v w : Bytes) :
    scan ends (quoteState q) v (body ++ w) = scan ends (quoteState q) (v ++ body) w := by
  induction body generalizing v with
  | nil => simp
  | cons d body ih =>
      have hd : d ≠ q := fun h => hbody (by simp [h])
      rw [List.cons_append, scan_quoteState hq, if_neg hd, ih (fun h => hbody (by simp [h])),
        List.append_assoc, List.singleton_append]

private theorem scan_comment {body : Bytes} (hbody : ∀ d ∈ body, d ≠ LF ∧ d ≠ CR) (v w : Bytes) :
    scan ends .comment v (body ++ w) = scan ends .comment (v ++ body) w := by
  induction body generalizing v with
  | nil => simp
  | cons d body ih =>
      rw [List.cons_append, scan, if_neg (not_or.mpr (hbody d (by simp))),
        ih (fun c hc => hbody c (by simp [hc])), List.append_assoc, List.singleton_append]

theorem scan_eq_of_lexes {text : Bytes} {ts : List Token} {e : Ending}
    (h : Lexes ends text ts e) : scan ends .initialWhitespace [] text = (ts, e) := by
  induction h with
  | done => rfl
  | blank hc _ ih => rw [scan, enter_of_isBlank hc, ih]
  | @comment body c w ts e hbody hc _ ih =>
      have first : scan ends .initialWhitespace [] (HASH :: body ++ c :: w) =
          scan ends .comment [HASH] (body ++ c :: w) := rfl
      rw [first, scan_comment hbody, scan, if_pos hc, ih]
  | @lastComment body hbody =>
      have first : scan ends .initialWhitespace [] (HASH :: body) =
          scan ends .comment [HASH] (body ++ []) := by rw [List.append_nil]; rfl
      rw [first, scan_comment hbody]
      rfl
  | punct hc _ ih =>
      simp only [scan, enter, hc, ih]
      rfl
  | @quoted q body w ts e hq hbody _ ih =>
      have first : scan ends .initialWhitespace [] (q :: body ++ q :: w) =
          scan ends (quoteState q) [q] (body ++ q :: w) := by
        rcases hq with rfl | rfl <;> rfl
      rw [first, scan_quoted hq hbody, scan_quoteState hq, if_pos rfl, ih]
      rfl
  | @unclosed q body hq hbody =>
      have first : scan ends .initialWhitespace [] (q :: body) =
          scan ends (quoteState q) [q] (body ++ []) := by
        rw [List.append_nil]
        rcases hq with rfl | rfl <;> rfl
      rw [first, scan_quoted hq hbody]
      rcases hq with rfl | rfl <;> rfl
  | @word run c w ts e hrun hc _ ih =>
      cases run with
      | nil => exact hrun.elim
      | cons d run =>
          have first : scan ends .initialWhitespace [] (d :: run ++ c :: w) =
              scan ends .normal [d] (run ++ c :: w) := enter_of_beginsWord hrun.1
          have next : enter (fun st v => scan ends st v w) c = (ts, e) := ih
          rw [first, scan_run hrun.2, scan, if_pos hc, next]
          rfl
  | @cut run hrun =>
      cases run with
      | nil => exact hrun.elim
      | cons d run =>
          have first : scan ends .initialWhitespace [] (d :: run) =
              scan ends .normal [d] (run ++ []) := by
            rw [List.append_nil]
            exact enter_of_beginsWord hrun.1
          rw [first, scan_run hrun.2]
          rfl

theorem lexes_iff {text : Bytes} {ts : List Token} {e : Ending} :
    Lexes ends text ts e ↔ scan ends .initialWhitespace [] text = (ts, e) := by
  constructor
  · exact scan_eq_of_lexes
  · intro h
    have read := @lexes_scan ends text .initialWhitespace [] rfl
    rwa [h] at read

end Scan

/-- What a call of `ParseToken` returns, against the tokens of the text it is called on. -/
inductive Returned : Lexed → List Token × Ending → Prop
  | word (w rest : Bytes) : Returned ⟨.normal, w, rest⟩ (prepend (.word w) (tokens rest))
  | openBlock (v rest : Bytes) : Returned ⟨.startBlock, v, rest⟩ (prepend .openBlock (tokens rest))
  | closeBlock (v rest : Bytes) : Returned ⟨.endBlock, v, rest⟩ (prepend .closeBlock (tokens rest))
  | semicolon (v rest : Bytes) :
    Returned ⟨.statementEnd, v, rest⟩ (prepend .semicolon (tokens rest))
  | comment (v rest : Bytes) : Returned ⟨.comment, v, rest⟩ (tokens rest)
  | eof (v : Bytes) {e : Ending} (he : e ≠ .unclosed) : Returned ⟨.eof, v, []⟩ ([], e)
  | error (v : Bytes) : Returned ⟨.error, v, []⟩ ([], .unclosed)

theorem returned_parseToken (text : Bytes) (st : TokenParserState) (v : Bytes)
    (hv : st = .initialWhitespace → v = []) :
    Returned (parseToken st v text) (scan endsToken st v text) := by
  induction text generalizing st v with
  | nil =>
      cases st with
      | singleQuote => exact .error v
      | doubleQuote => exact .error v
      | _ => exact .eof v (by simp)
  | cons c text ih =>
      cases st with
      | initialWhitespace =>
          obtain rfl := hv rfl
          rw [parseToken, scan]
          split_ifs with h₁ h₂ h₃ h₄ h₅ h₆ h₇
          · subst h₁
            exact .openBlock _ _
          · subst h₂
            exact .closeBlock _ _
          · subst h₃
            exact ih .comment _ (by simp)
          · subst h₄
            exact ih .doubleQuote _ (by simp)
          · subst h₅
            exact ih .singleQuote _ (by simp)
          · subst h₆
            exact .semicolon _ _
          · rw [enter_of_isBlank h₇]
            exact ih .initialWhitespace _ (by simp)
          · rw [enter_of_beginsWord (by simp [beginsWord, h₁, h₂, h₃, h₄, h₅, h₆, h₇])]
            exact ih .normal _ (by simp)
      | singleQuote =>
          rw [parseToken, scan]
          split_ifs with hc
          · exact .word _ _
          · exact ih _ _ (by simp)
      | doubleQuote =>
          rw [parseToken, scan]
          split_ifs with hc
          · exact .word _ _
          · exact ih _ _ (by simp)
      | comment =>
          rw [parseToken, scan]
          split_ifs with hc
          · exact .comment _ _
          · exact ih _ _ (by simp)
      | normal =>
          rw [parseToken, scan]
          split_ifs with hc
          · exact .word _ _
          · exact ih _ _ (by simp)

private theorem parseToken_rest_le (text : Bytes) (st : TokenParserState) (v : Bytes) :
    (parseToken st v text).rest.length ≤ text.length := by
  induction text generalizing st v with
  | nil => exact le_refl 0
  | cons c text ih =>
      have skip : text.length ≤ (c :: text).length := by simp
      have go : ∀ st v, (parseToken st v text).rest.length ≤ (c :: text).length :=
        fun st v => (ih st v).trans skip
      cases st with
      | initialWhitespace =>
          rw [parseToken]
          split_ifs
          all_goals first
            | exact skip
            | exact go _ _
      | _ =>
          rw [parseToken]
          split_ifs
          all_goals first
            | exact skip
            | exact le_refl _
            | exact go _ _

theorem parseToken_rest_lt (c : UInt8) (text v : Bytes) :
    (parseToken .initialWhitespace v (c :: text)).rest.length < (c :: text).length := by
  rw [List.length_cons, Nat.lt_succ_iff, parseToken]
  split_ifs
  all_goals first
    | exact le_refl _
    | exact parseToken_rest_le text _ _

end Wnza.Config.Lexer
