/- GID: Wnza/Config/Concatenation
   generality: I
   source: src/config_parser.cc (Parse, parse_port, get_location_result)
   digest: Two configurations in one text, and what is read from both. -/

import Wnza.Config.Parser
import Wnza.Config.Ports

set_option autoImplicit false
set_option relaxedAutoImplicit false

namespace Wnza.Config.Concatenation

open Wnza.Http.Text
open Wnza.Config.Lexer
open Wnza.Config.Tree
open Wnza.Config.Parser
open Wnza.Config.Ports

section Texts

variable {a b : Bytes} {ts us : List Token} {e : Ending}

private theorem lexes_append (h : Lexes endsToken a ts .done) (h' : Lexes endsToken b us e) :
    Lexes endsToken (a ++ LF :: b) (ts ++ us) e := by
  generalize hdone : Ending.done = f at h
  induction h with
  | done => exact .blank (by decide) h'
  | blank hc _ ih => exact .blank hc (ih hdone)
  | comment hbody hc _ ih =>
      rw [List.append_assoc]
      exact .comment hbody hc (ih hdone)
  | lastComment hbody => exact .comment hbody (.inl rfl) h'
  | punct hc _ ih => exact .punct hc (ih hdone)
  | quoted hq hbody _ ih =>
      rw [List.append_assoc]
      exact .quoted hq hbody (ih hdone)
  | unclosed _ _ => cases hdone
  | word hrun hc _ ih =>
      rw [List.append_assoc]
      exact .word hrun hc (ih hdone)
  | cut _ => cases hdone

private theorem tokens_append (whole : (tokens a).2 = .done) :
    tokens (a ++ LF :: b) = ((tokens a).1 ++ (tokens b).1, (tokens b).2) := by
  have first : Lexes endsToken a (tokens a).1 (tokens a).2 := lexes_iff.mpr rfl
  have second : Lexes endsToken b (tokens b).1 (tokens b).2 := lexes_iff.mpr rfl
  rw [whole] at first
  exact lexes_iff.mp (lexes_append first second)

end Texts

section Trees

variable {ts us vs : List Token} {b c d : List NginxConfigStatement}

def isWord : Token → Bool
  | .word _ => true
  | _ => false

private theorem words_inj {ws ws' : List Bytes} {t t' : Token} (ht : isWord t = false)
    (ht' : isWord t' = false) (h : ws.map Token.word ++ t :: us = ws'.map Token.word ++ t' :: vs) :
    ws = ws' ∧ t = t' ∧ us = vs := by
  induction ws generalizing ws' with
  | nil =>
      cases ws' with
      | nil => exact ⟨rfl, List.cons.inj h⟩
      | cons w' ws' =>
          obtain ⟨rfl, -⟩ := List.cons.inj h
          cases ht
  | cons w ws ih =>
      cases ws' with
      | nil =>
          obtain ⟨rfl, -⟩ := List.cons.inj h
          cases ht'
      | cons w' ws' =>
          obtain ⟨hw, rest⟩ := List.cons.inj h
          obtain ⟨rfl, same⟩ := ih rest
          exact ⟨by rw [Token.word.inj hw], same⟩

private theorem not_derives_close (h : Derives us b) : ¬ Derives (us ++ .closeBlock :: vs) c := by
  intro whole
  have accepts := run_complete (e := .done) whole (by simp)
  by_cases hus : us = []
  · subst hus
    cases accepts
  · rw [List.append_cons, (leads_closeRoot h hus).run] at accepts
    cases vs with
    | nil => cases accepts
    | cons t vs => cases t <;> cases accepts

private theorem inner_unique {us' vs' : List Token} (h : Derives us b) (h' : Derives us' c)
    (same : us ++ .closeBlock :: vs = us' ++ .closeBlock :: vs') : us = us' ∧ vs = vs' := by
  rcases List.append_eq_append_iff.mp same with ⟨ws, rfl, hws⟩ | ⟨ws, rfl, hws⟩
  · cases ws with
    | nil =>
        rw [List.append_nil]
        exact ⟨rfl, (List.cons.inj hws).2⟩
    | cons t ws =>
        obtain ⟨rfl, -⟩ := List.cons.inj hws
        exact absurd h' (not_derives_close h)
  · cases ws with
    | nil =>
        rw [List.append_nil]
        exact ⟨rfl, (List.cons.inj hws).2.symm⟩
    | cons t ws =>
        obtain ⟨rfl, -⟩ := List.cons.inj hws
        exact absurd h (not_derives_close h')

private theorem block_eq_of_derives (h : Derives us b) (h' : Derives us c) : b = c := by
  have first := run_complete (e := .done) h (by simp)
  rw [run_complete h' (by simp)] at first
  exact (NginxConfig.mk.inj (Option.some.inj (Except.ok.inj first))).symm

private theorem derives_append_inv (h : Derives ts b) (whole : Derives (ts ++ us) c) :
    ∃ d, Derives us d ∧ c = b ++ d := by
  induction h generalizing c with
  | nil => exact ⟨c, whole, rfl⟩
  | @simple ws ts b hws _ ih =>
      rw [List.append_assoc, List.cons_append] at whole
      generalize hall : ws.map Token.word ++ .semicolon :: (ts ++ us) = all at whole
      cases whole with
      | nil => simp at hall
      | @simple ws' ts' b' hws' rest =>
          obtain ⟨rfl, -, rfl⟩ := words_inj rfl rfl hall
          obtain ⟨d, hd, rfl⟩ := ih rest
          exact ⟨d, hd, rfl⟩
      | block _ _ _ =>
          obtain ⟨-, ht, -⟩ := words_inj rfl rfl hall
          cases ht
  | @block ws vs ts inner b hws hinner _ _ ih =>
      rw [List.append_assoc, List.cons_append, List.append_assoc, List.cons_append] at whole
      generalize hall : ws.map Token.word ++ .openBlock :: (vs ++ .closeBlock :: (ts ++ us)) = all
        at whole
      cases whole with
      | nil => simp at hall
      | simple _ _ =>
          obtain ⟨-, ht, -⟩ := words_inj rfl rfl hall
          cases ht
      | @block ws' vs' ts' inner' b' hws' hinner' rest =>
          obtain ⟨rfl, -, hrest⟩ := words_inj rfl rfl hall
          obtain ⟨rfl, rfl⟩ := inner_unique hinner hinner' hrest
          obtain rfl := block_eq_of_derives hinner hinner'
          obtain ⟨d, hd, rfl⟩ := ih rest
          exact ⟨d, hd, rfl⟩

private theorem portOf_append (b d : List NginxConfigStatement) :
    portOf (b ++ d) = if portOf b = -1 then portOf d else portOf b := by
  induction b with
  | nil => rfl
  | cons s b ih =>
      cases hs : statementPort s with
      | none =>
          have skip : ∀ rest, portOf (s :: rest) = portOf rest := by
            intro rest
            rw [portOf, hs]
          rw [List.cons_append, skip, skip, ih]
      | some port =>
          have here : ∀ rest, portOf (s :: rest) = port := by
            intro rest
            rw [portOf, hs]
          rw [List.cons_append, here, here, if_neg (ne_of_statementPort hs)]

private theorem locationsOf_append {found others : List LocationParseResult}
    (h : locationsOf b = .ok found) (h' : locationsOf d = .ok others) :
    locationsOf (b ++ d) = .ok (found ++ others) := by
  induction b generalizing found with
  | nil =>
      obtain rfl := Except.ok.inj h
      exact h'
  | cons s b ih =>
      rw [List.cons_append]
      simp only [locationsOf] at h ⊢
      cases hs : locationOf s with
      | error e => simp [hs] at h
      | ok here =>
          cases hrest : locationsOf b with
          | error e => simp [hs, hrest] at h
          | ok more =>
              simp only [hs, hrest, Except.ok.injEq] at h
              simp only [ih hrest, ← h, List.append_assoc]

end Trees

/-- A configuration that is not cut off inside a word, a new line and another text: together they
are read as the statements of both, or not at all if the other text is not.  The first one has the
say on the port, and its locations come first. -/
theorem parse_concatenated_iff (a b : Bytes) (first : NginxConfig)
    (accepted : parse a = some (.ok (some first))) (whole : (tokens a).2 = .done)
    (config : NginxConfig) :
    (parse (a ++ LF :: b) = some (.ok (some config)) ↔
      ∃ second, parse b = some (.ok (some second)) ∧
        config.statements = first.statements ++ second.statements) ∧
    ∀ second : NginxConfig, config.statements = first.statements ++ second.statements →
      config.parsePort = (if first.parsePort = -1 then second.parsePort else first.parsePort) ∧
        ∀ found others, first.getLocationResult = .ok found →
          second.getLocationResult = .ok others →
            config.getLocationResult = .ok (found ++ others) := by
  have derives := (parse_accepts_iff.mp accepted).2
  refine ⟨?_, fun second hconfig => ⟨?_, ?_⟩⟩
  · rw [parse_accepts_iff, tokens_append whole]
    constructor
    · rintro ⟨closed, both⟩
      obtain ⟨d, hd, hconfig⟩ := derives_append_inv derives both
      exact ⟨⟨d⟩, parse_accepts_iff.mpr ⟨closed, hd⟩, hconfig⟩
    · rintro ⟨second, accepted', hconfig⟩
      obtain ⟨closed, derives'⟩ := parse_accepts_iff.mp accepted'
      rw [hconfig]
      exact ⟨closed, derives.append derives'⟩
  · rw [NginxConfig.parsePort, hconfig]
    exact portOf_append _ _
  · intro found others hfound hothers
    rw [NginxConfig.getLocationResult, hconfig]
    exact locationsOf_append hfound hothers

theorem parse_concatenated_port :
    ∃ first second config, parse (lit "port 80;") = some (.ok (some first)) ∧
      parse (lit "port 90;") = some (.ok (some second)) ∧
      parse (lit "port 80;" ++ LF :: lit "port 90;") = some (.ok (some config)) ∧
      config.statements = first.statements ++ second.statements ∧ config.parsePort = 80 := by
  have accepted : parse (lit "port 80;") =
      some (.ok (some ⟨[.mk [lit "port", lit "80"] none]⟩)) := rfl
  have both : parse (lit "port 80;" ++ LF :: lit "port 90;") = some (.ok (some
      ⟨[.mk [lit "port", lit "80"] none, .mk [lit "port", lit "90"] none]⟩)) := rfl
  obtain ⟨read, follows⟩ := parse_concatenated_iff _ (lit "port 90;") _ accepted rfl
    ⟨[.mk [lit "port", lit "80"] none, .mk [lit "port", lit "90"] none]⟩
  obtain ⟨second, accepted', statements⟩ := read.mp both
  refine ⟨_, second, _, accepted, accepted', both, statements, ?_⟩
  rw [(follows second statements).1]
  rfl

end Wnza.Config.Concatenation
