/- GID: Wnza/Config/Acceptance
   generality: I
   source: include/config_parser.h, src/config_parser.cc
   digest: The configuration texts of the grammar, against the texts that the parser accepts. -/

import Wnza.Config.Parser

set_option autoImplicit false
set_option relaxedAutoImplicit false

namespace Wnza.Config.Acceptance

open Wnza.Http.Text
open Wnza.Config.Lexer
open Wnza.Config.Parser
open Wnza.Config.Tree

def endsWord (c : UInt8) : Bool :=
  isBlank c || c == SEMICOLON || c == LBRACE || c == RBRACE

/-- The tokens of a text by the grammar: every quote is closed, and the end of the text ends a
word as a blank does. -/
def Reads (text : Bytes) (ts : List Token) : Prop :=
  Lexes endsWord text ts .done ∨ ∃ us w, Lexes endsWord text us (.cut w) ∧ ts = us ++ [.word w]

/-- A text of the grammar, with its parse tree. -/
def IsConfig (text : Bytes) (b : List NginxConfigStatement) : Prop :=
  ∃ ts, Reads text ts ∧ Derives ts b

/-- `Parse` returns, and returns true with a tree exactly if it is the parse tree of the text. -/
def Faithful (text : Bytes) : Prop :=
  ∃ result, parse text = some (.ok result) ∧
    ∀ config : NginxConfig, result = some config ↔ IsConfig text config.statements

/-- No unquoted word contains a carriage return, and none is cut off by the end of the text. -/
structure WholeWords (text : Bytes) : Prop where
  plain : ∀ w, .word w ∈ (tokens text).1 → CR ∈ w → IsQuoted w
  ended : ∀ w, (tokens text).2 ≠ .cut w

/-- The statements of a text as `ParseToken` cuts it into words: carriage returns belong to
unquoted words, and a word that the end of the text cuts off is dropped. -/
def CutConfig (text : Bytes) (b : List NginxConfigStatement) : Prop :=
  (tokens text).2 ≠ .unclosed ∧ Derives (tokens text).1 b

theorem lexes_tokens (text : Bytes) : Lexes endsToken text (tokens text).1 (tokens text).2 :=
  lexes_iff.mpr rfl

private theorem Lexes.unique {ends : UInt8 → Bool} {text : Bytes} {ts us : List Token}
    {e f : Ending} (h : Lexes ends text ts e) (h' : Lexes ends text us f) : ts = us ∧ e = f := by
  have same := (lexes_iff.mp h).symm.trans (lexes_iff.mp h')
  exact Prod.mk.inj same

theorem endsWord_iff {c : UInt8} : endsWord c = true ↔ endsToken c = true ∨ c = CR := by
  simp only [endsWord, endsToken, isBlank, Bool.or_eq_true, beq_iff_eq]
  tauto

theorem not_isQuoted_of_isRun {ends : UInt8 → Bool} {w : Bytes} (h : IsRun ends w) :
    ¬ IsQuoted w := by
  rintro ⟨q, body, hq, -, rfl⟩
  have begins := h.1
  rcases hq with rfl | rfl <;> revert begins <;> decide

private theorem isRun_endsWord {w : Bytes} (h : IsRun endsToken w) (hcr : CR ∉ w) :
    IsRun endsWord w := by
  cases w with
  | nil => exact h.elim
  | cons c w =>
      refine ⟨h.1, fun d hd => ?_⟩
      rw [Bool.eq_false_iff, ne_eq, endsWord_iff]
      rintro (hends | rfl)
      · rw [h.2 d hd] at hends
        cases hends
      · exact hcr (by simp [hd])

private theorem lexes_endsWord {text : Bytes} {ts : List Token} {e : Ending}
    (h : Lexes endsToken text ts e) (plain : ∀ w, .word w ∈ ts → CR ∈ w → IsQuoted w)
    (hcut : ∀ w, e = .cut w → CR ∉ w) :
    Lexes endsWord text ts e := by
  induction h with
  | done => exact .done
  | blank hc _ ih => exact .blank hc (ih plain hcut)
  | comment hbody hc _ ih => exact .comment hbody hc (ih plain hcut)
  | lastComment hbody => exact .lastComment hbody
  | punct hc _ ih => exact .punct hc (ih (fun w hw => plain w (by simp [hw])) hcut)
  | quoted hq hbody _ ih => exact .quoted hq hbody (ih (fun w hw => plain w (by simp [hw])) hcut)
  | unclosed hq hbody => exact .unclosed hq hbody
  | @word run c w ts e hrun hc _ ih =>
      have hcr : CR ∉ run := fun h => not_isQuoted_of_isRun hrun (plain run (by simp) h)
      exact .word (isRun_endsWord hrun hcr) (endsWord_iff.mpr (.inl hc))
        (ih (fun w hw => plain w (by simp [hw])) hcut)
  | @cut run hrun => exact .cut (isRun_endsWord hrun (hcut run rfl))

private theorem cr_not_mem_of_isRun {w : Bytes} (h : IsRun endsWord w) : CR ∉ w := by
  cases w with
  | nil => simp
  | cons c w =>
      intro hmem
      rcases List.mem_cons.mp hmem with rfl | hmem
      · exact absurd h.1 (by decide)
      · exact absurd (h.2 CR hmem) (by decide)

private theorem plain_of_lexes {text : Bytes} {ts : List Token} {e : Ending}
    (h : Lexes endsWord text ts e) :
    (∀ w, .word w ∈ ts → CR ∈ w → IsQuoted w) ∧ ∀ w, e = .cut w → CR ∉ w := by
  induction h with
  | done => simp
  | blank _ _ ih => exact ih
  | comment _ _ _ ih => exact ih
  | lastComment _ => simp
  | @punct c t w ts e hc _ ih =>
      refine ⟨fun v hv => ?_, ih.2⟩
      rcases List.mem_cons.mp hv with rfl | hv
      · simp only [punctuation] at hc
        split_ifs at hc <;> cases hc
      · exact ih.1 v hv
  | @quoted q body w ts e hq hbody _ ih =>
      refine ⟨fun v hv => ?_, ih.2⟩
      rcases List.mem_cons.mp hv with hv | hv
      · rw [Token.word.inj hv]
        exact fun _ => ⟨q, body, hq, hbody, rfl⟩
      · exact ih.1 v hv
  | unclosed _ _ => simp
  | @word run c w ts e hrun _ _ ih =>
      refine ⟨fun v hv hcr => ?_, ih.2⟩
      rcases List.mem_cons.mp hv with hv | hv
      · rw [Token.word.inj hv] at hcr
        exact absurd hcr (cr_not_mem_of_isRun hrun)
      · exact ih.1 v hv hcr
  | @cut run hrun =>
      refine ⟨by simp, fun w hw => ?_⟩
      obtain rfl := Ending.cut.inj hw
      exact cr_not_mem_of_isRun hrun

private theorem plain_of_reads {text : Bytes} {ts : List Token} (h : Reads text ts) :
    ∀ w, .word w ∈ ts → CR ∈ w → IsQuoted w := by
  rcases h with h | ⟨us, v, h, rfl⟩
  · exact (plain_of_lexes h).1
  · intro w hw hcr
    rcases List.mem_append.mp hw with hw | hw
    · exact (plain_of_lexes h).1 w hw hcr
    · obtain rfl := Token.word.inj (List.mem_singleton.mp hw)
      exact absurd hcr ((plain_of_lexes h).2 w rfl)

private theorem lexes_of_cut {text w : Bytes} {ts : List Token}
    (h : Lexes endsToken text ts (.cut w)) (plain : ∀ w, .word w ∈ ts → CR ∈ w → IsQuoted w) :
    ∃ us e, Lexes endsWord text us e ∧
      ((us = ts ∧ ∃ v, e = .cut v) ∨ ∃ v vs, us = ts ++ v :: vs) := by
  generalize hend : Ending.cut w = ending at h
  induction h with
  | done => cases hend
  | lastComment _ => cases hend
  | unclosed _ _ => cases hend
  | blank hc _ ih =>
      obtain ⟨us, e, read, more⟩ := ih plain hend
      exact ⟨us, e, .blank hc read, more⟩
  | comment hbody hc _ ih =>
      obtain ⟨us, e, read, more⟩ := ih plain hend
      exact ⟨us, e, .comment hbody hc read, more⟩
  | @punct c t w ts e hc _ ih =>
      obtain ⟨us, e, read, more⟩ := ih (fun w hw => plain w (by simp [hw])) hend
      refine ⟨t :: us, e, .punct hc read, ?_⟩
      rcases more with ⟨rfl, hcut⟩ | ⟨v, vs, rfl⟩
      · exact .inl ⟨rfl, hcut⟩
      · exact .inr ⟨v, vs, rfl⟩
  | @quoted q body w ts e hq hbody _ ih =>
      obtain ⟨us, e, read, more⟩ := ih (fun w hw => plain w (by simp [hw])) hend
      refine ⟨_ :: us, e, .quoted hq hbody read, ?_⟩
      rcases more with ⟨rfl, hcut⟩ | ⟨v, vs, rfl⟩
      · exact .inl ⟨rfl, hcut⟩
      · exact .inr ⟨v, vs, rfl⟩
  | @word run c w ts e hrun hc _ ih =>
      have hcr : CR ∉ run := fun h => not_isQuoted_of_isRun hrun (plain run (by simp) h)
      obtain ⟨us, e, read, more⟩ := ih (fun w hw => plain w (by simp [hw])) hend
      refine ⟨_ :: us, e, .word (isRun_endsWord hrun hcr) (endsWord_iff.mpr (.inl hc)) read, ?_⟩
      rcases more with ⟨rfl, hcut⟩ | ⟨v, vs, rfl⟩
      · exact .inl ⟨rfl, hcut⟩
      · exact .inr ⟨v, vs, rfl⟩
  | @cut run hrun =>
      by_cases hcr : CR ∈ run
      · -- the grammar ends the word at its first carriage return and reads on
        obtain ⟨as, bs, rfl, has⟩ := List.eq_append_cons_of_mem hcr
        have first : IsRun endsWord as := by
          cases as with
          | nil => exact absurd hrun.1 (by decide)
          | cons a as =>
              exact isRun_endsWord ⟨hrun.1, fun d hd => hrun.2 d (by simp [hd])⟩ has
        have rest := @lexes_scan endsWord (CR :: bs) .initialWhitespace [] rfl
        exact ⟨_, _, .word first (by decide) rest, .inr ⟨_, _, rfl⟩⟩
      · exact ⟨[], .cut run, .cut (isRun_endsWord hrun hcr), .inl ⟨rfl, run, rfl⟩⟩

private theorem not_reads_of_cut {text w : Bytes} {ts : List Token}
    (h : Lexes endsToken text ts (.cut w)) (plain : ∀ w, .word w ∈ ts → CR ∈ w → IsQuoted w) :
    ¬ Reads text ts := by
  intro reads
  obtain ⟨us, e, read, more⟩ := lexes_of_cut h plain
  rcases reads with closed | ⟨vs, v, cut, hts⟩
  · obtain ⟨rfl, rfl⟩ := Lexes.unique read closed
    rcases more with ⟨-, v, hv⟩ | ⟨v, vs, longer⟩
    · cases hv
    · have := congrArg List.length longer
      simp at this
  · obtain ⟨rfl, -⟩ := Lexes.unique read cut
    have shorter := congrArg List.length hts
    rw [List.length_append, List.length_singleton] at shorter
    rcases more with ⟨same, -⟩ | ⟨v, vs, longer⟩
    · have := congrArg List.length same
      omega
    · have := congrArg List.length longer
      rw [List.length_append, List.length_cons] at this
      omega

theorem tokens_eq_of_derives {ts us : List Token} {b : List NginxConfigStatement} (h : Derives ts b)
    (h' : Derives us b) : ts = us := by
  induction h generalizing us with
  | nil =>
      cases h'
      rfl
  | simple hws _ ih =>
      cases h' with
      | simple _ rest => rw [ih rest]
  | block hws _ _ ihInner ih =>
      cases h' with
      | block _ inner rest => rw [ihInner inner, ih rest]

private theorem cutConfig_iff_of_wholeWords {text : Bytes} (whole : WholeWords text)
    (b : List NginxConfigStatement) : CutConfig text b ↔ IsConfig text b := by
  have read : Lexes endsWord text (tokens text).1 (tokens text).2 :=
    lexes_endsWord (lexes_tokens text) whole.plain (fun w hw => absurd hw (whole.ended w))
  constructor
  · rintro ⟨closed, derives⟩
    refine ⟨_, .inl ?_, derives⟩
    cases hend : (tokens text).2 with
    | done => rwa [hend] at read
    | cut w => exact absurd hend (whole.ended w)
    | unclosed => exact absurd hend closed
  · rintro ⟨ts, reads, derives⟩
    rcases reads with closed | ⟨us, w, cut, -⟩
    · obtain ⟨hts, hend⟩ := Lexes.unique read closed
      exact ⟨by simp [hend], by rwa [hts]⟩
    · exact absurd (Lexes.unique read cut).2 (whole.ended w)

private theorem wholeWords_of_both {text : Bytes} {b : List NginxConfigStatement}
    (cutConfig : CutConfig text b) (isConfig : IsConfig text b) : WholeWords text := by
  obtain ⟨ts, reads, derives⟩ := isConfig
  obtain rfl := tokens_eq_of_derives derives cutConfig.2
  have plain := plain_of_reads reads
  refine ⟨plain, fun w hcut => ?_⟩
  have read := lexes_tokens text
  rw [hcut] at read
  exact not_reads_of_cut read plain reads

/-- `Parse` decides the grammar on a text exactly if it does not run into its empty block stack
and, unless every word of the text is whole, the text is no configuration in either reading. -/
theorem parse_faithful_iff (text : Bytes) :
    Faithful text ↔
      ¬ Underflow (tokens text).1 ∧
        (WholeWords text ∨ ∀ b, ¬ CutConfig text b ∧ ¬ IsConfig text b) := by
  have accepts : ∀ {result}, parse text = some (.ok result) →
      ∀ config : NginxConfig, result = some config ↔ CutConfig text config.statements := by
    intro result hresult config
    rw [CutConfig, ← parse_accepts_iff, hresult]
    simp
  constructor
  · rintro ⟨result, hresult, decides⟩
    constructor
    · intro underflow
      have fault := parse_faults_iff.mpr ⟨rfl, underflow⟩
      rw [hresult] at fault
      cases Option.some.inj fault
    · by_cases whole : WholeWords text
      · exact .inl whole
      · right
        have agree : ∀ b, CutConfig text b ↔ IsConfig text b :=
          fun b => (accepts hresult ⟨b⟩).symm.trans (decides ⟨b⟩)
        intro b
        have neither : ¬ CutConfig text b :=
          fun h => whole (wholeWords_of_both h ((agree b).mp h))
        exact ⟨neither, fun h => neither ((agree b).mpr h)⟩
  · rintro ⟨defined, readings⟩
    obtain ⟨result, hresult⟩ : ∃ result, parse text = some (.ok result) := by
      cases hrun : run (tokens text).2 (tokens text).1 .start with
      | ok result => exact ⟨result, by rw [parse_eq, hrun]⟩
      | error f =>
          have fault : parse text = some (.error f) := by rw [parse_eq, hrun]
          exact absurd (parse_faults_iff.mp fault).2 defined
    refine ⟨result, hresult, fun config => ?_⟩
    rw [accepts hresult]
    rcases readings with whole | neither
    · exact cutConfig_iff_of_wholeWords whole _
    · exact iff_of_false (neither _).1 (neither _).2

/-- A text of one word and nothing else is accepted, as the empty configuration. -/
theorem unfinished_statement_accepted :
    parse (lit "foo") = some (.ok (some ⟨[]⟩)) ∧ ¬ Faithful (lit "foo") := by
  have accepted : parse (lit "foo") = some (.ok (some ⟨[]⟩)) := rfl
  refine ⟨accepted, ?_⟩
  rintro ⟨result, hresult, decides⟩
  obtain rfl : some ⟨[]⟩ = result := Except.ok.inj (Option.some.inj (accepted.symm.trans hresult))
  obtain ⟨ts, reads, derives⟩ := (decides ⟨[]⟩).mp rfl
  cases derives
  rcases reads with closed | ⟨us, w, -, hts⟩
  · cases scan_eq_of_lexes closed
  · simp at hts

end Wnza.Config.Acceptance
