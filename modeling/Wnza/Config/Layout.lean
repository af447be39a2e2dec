/- GID: Wnza/Config/Layout
   generality: I
   source: src/config_parser.cc (NginxConfigParser::ParseToken, Parse)
   digest: Texts that differ in their layout only, and when the parser takes them for the same. -/

import Wnza.Foundation.InputStream
import Wnza.Config.Acceptance

set_option autoImplicit false
set_option relaxedAutoImplicit false

namespace Wnza.Config.Layout

open Wnza.Foundation.InputStream (exists_split)
open Wnza.Http.Text
open Wnza.Config.Lexer
open Wnza.Config.Parser
open Wnza.Config.Acceptance
open Wnza.Config.Tree

def IsBlanks (g : Bytes) : Prop := ∀ c ∈ g, isBlank c = true

def IsRemark (body : Bytes) : Prop := ∀ d ∈ body, d ≠ LF ∧ d ≠ CR

def IsBreak (c : UInt8) : Prop := c = LF ∨ c = CR

def IsGap (g : Bytes) : Prop :=
  ∃ (blanks : Bytes) (bodies : List Bytes), blanks ≠ [] ∧ IsBlanks blanks ∧
    (∀ body ∈ bodies, IsRemark body) ∧
      g = blanks ++ bodies.flatMap (fun body => HASH :: body ++ [LF])

/-- The second text has the tokens of the first one, and gaps in place of any of its runs of
blanks; the line end of a comment and the blanks behind it are such a run.  What follows an
unquoted word in the two texts is related by `carry`. -/
inductive RelaidWith (carry : Bytes → Bytes → Prop) : Bytes → Bytes → Prop
  | done : RelaidWith carry [] []
  | gap {g g' w w' : Bytes} (hne : g ≠ []) (hg : IsBlanks g) (hg' : IsGap g')
      (rest : RelaidWith carry w w') : RelaidWith carry (g ++ w) (g' ++ w')
  | comment {body g g' w w' : Bytes} {c c' : UInt8} (hbody : IsRemark body) (hc : IsBreak c)
      (hc' : IsBreak c') (hg : IsBlanks g) (hg' : g' = [] ∨ IsGap g')
      (rest : RelaidWith carry w w') :
      RelaidWith carry (HASH :: body ++ c :: (g ++ w)) (HASH :: body ++ c' :: (g' ++ w'))
  | lastComment {body : Bytes} (hbody : IsRemark body) :
      RelaidWith carry (HASH :: body) (HASH :: body)
  | punct {c : UInt8} {t : Token} {w w' : Bytes} (hc : punctuation c = some t)
      (rest : RelaidWith carry w w') : RelaidWith carry (c :: w) (c :: w')
  | quoted {q : UInt8} {body w w' : Bytes} (hq : q = QUOTE ∨ q = APOSTROPHE) (hbody : q ∉ body)
      (rest : RelaidWith carry w w') :
      RelaidWith carry (q :: body ++ q :: w) (q :: body ++ q :: w')
  | unclosed {q : UInt8} {body : Bytes} (hq : q = QUOTE ∨ q = APOSTROPHE) (hbody : q ∉ body) :
      RelaidWith carry (q :: body) (q :: body)
  | word {run w w' : Bytes} {c : UInt8} (hrun : IsRun endsWord run) (hc : endsWord c = true)
      (behind : carry (c :: w) w') (rest : RelaidWith carry (c :: w) w') :
      RelaidWith carry (run ++ c :: w) (run ++ w')
  | cut {run : Bytes} (hrun : IsRun endsWord run) : RelaidWith carry run run

/-- The tokens of a text when these bytes end its unquoted words. -/
def reading (ends : UInt8 → Bool) (text : Bytes) : List Token × Ending :=
  scan ends .initialWhitespace [] text

/-- The same text in another layout. -/
def Relaid : Bytes → Bytes → Prop := RelaidWith (fun _ _ => True)

/-- Both texts begin with so many carriage returns and then a byte that ends a token. -/
def SameCarry (w w' : Bytes) : Prop :=
  ∃ n c x c' x', w = List.replicate n CR ++ c :: x ∧ endsToken c = true ∧
    w' = List.replicate n CR ++ c' :: x' ∧ endsToken c' = true

/-- Another layout with the same carriage returns behind every unquoted word. -/
def RelaidAlike : Bytes → Bytes → Prop := RelaidWith SameCarry

/-- Carriage returns stand at the end of the unquoted words that `ParseToken` reads, if at all. -/
structure CarriesLast (text : Bytes) : Prop where
  words : ∀ w, .word w ∈ (tokens text).1 → ¬ IsQuoted w →
    ∃ core n, CR ∉ core ∧ w = core ++ List.replicate n CR
  cut : ∀ w, (tokens text).2 = .cut w → CR ∉ w

def closesWord (c : UInt8) : Bool := c == SEMICOLON || c == LBRACE || c == RBRACE

/-- No unquoted word stands before a blank: the words are the same when only punctuation ends
them. -/
def Closed (text : Bytes) : Prop := reading closesWord text = reading endsWord text

private theorem isBlanks_singleton {c : UInt8} (hc : isBlank c = true) : IsBlanks [c] := by
  simpa [IsBlanks] using hc

private theorem isGap_of_isBlanks {g : Bytes} (hne : g ≠ []) (hg : IsBlanks g) : IsGap g :=
  ⟨g, [], hne, hg, by simp, by simp⟩

section Reading

variable {ends : UInt8 → Bool} {w : Bytes}

private theorem prepend_inj {t : Token} {r r' : List Token × Ending}
    (h : prepend t r = prepend t r') :
    r = r' := by
  obtain ⟨words, ending⟩ := Prod.mk.inj h
  exact Prod.ext (List.cons.inj words).2 ending

private theorem lexes_reading (w : Bytes) : Lexes ends w (reading ends w).1 (reading ends w).2 :=
  lexes_iff.mpr rfl

private theorem reading_blank {c : UInt8} (hc : isBlank c = true) :
    reading ends (c :: w) = reading ends w :=
  scan_eq_of_lexes (.blank hc (lexes_reading w))

private theorem reading_blanks {g : Bytes} (hg : IsBlanks g) :
    reading ends (g ++ w) = reading ends w := by
  induction g with
  | nil => rfl
  | cons c g ih =>
      rw [List.cons_append, reading_blank (hg c (by simp))]
      exact ih (fun d hd => hg d (by simp [hd]))

private theorem reading_comment {body : Bytes} {c : UInt8} (hbody : IsRemark body)
    (hc : IsBreak c) :
    reading ends (HASH :: body ++ c :: w) = reading ends w :=
  scan_eq_of_lexes (.comment hbody hc (lexes_reading w))

private theorem reading_gap {g : Bytes} (hg : IsGap g) :
    reading ends (g ++ w) = reading ends w := by
  obtain ⟨blanks, bodies, -, hblanks, hbodies, rfl⟩ := hg
  rw [List.append_assoc, reading_blanks hblanks]
  induction bodies with
  | nil => rfl
  | cons body bodies ih =>
      rw [List.flatMap_cons, List.append_assoc, List.append_assoc, List.singleton_append,
        reading_comment (hbodies body (by simp)) (.inl rfl)]
      exact ih (fun b hb => hbodies b (by simp [hb]))

private theorem reading_punct {c : UInt8} {t : Token} (hc : punctuation c = some t) :
    reading ends (c :: w) = prepend t (reading ends w) :=
  scan_eq_of_lexes (.punct hc (lexes_reading w))

private theorem reading_quoted {q : UInt8} {body : Bytes} (hq : q = QUOTE ∨ q = APOSTROPHE)
    (hbody : q ∉ body) :
    reading ends (q :: body ++ q :: w) =
      prepend (.word (q :: body ++ [q])) (reading ends w) :=
  scan_eq_of_lexes (.quoted hq hbody (lexes_reading w))

private theorem reading_word {run : Bytes} {c : UInt8} (hrun : IsRun ends run)
    (hc : ends c = true) :
    reading ends (run ++ c :: w) = prepend (.word run) (reading ends (c :: w)) :=
  scan_eq_of_lexes (.word hrun hc (lexes_reading _))

private theorem reading_cut {run : Bytes} (hrun : IsRun ends run) :
    reading ends run = ([], .cut run) :=
  scan_eq_of_lexes (.cut hrun)

end Reading

section Tokens

variable {w : Bytes}

private theorem tokens_blanks {g : Bytes} (hg : IsBlanks g) : tokens (g ++ w) = tokens w :=
  reading_blanks hg

private theorem tokens_comment {body : Bytes} {c : UInt8} (hbody : IsRemark body) (hc : IsBreak c) :
    tokens (HASH :: body ++ c :: w) = tokens w :=
  reading_comment hbody hc

private theorem tokens_gap {g : Bytes} (hg : IsGap g) : tokens (g ++ w) = tokens w :=
  reading_gap hg

private theorem tokens_punct {c : UInt8} {t : Token} (hc : punctuation c = some t) :
    tokens (c :: w) = prepend t (tokens w) :=
  reading_punct hc

private theorem tokens_quoted {q : UInt8} {body : Bytes} (hq : q = QUOTE ∨ q = APOSTROPHE)
    (hbody : q ∉ body) :
    tokens (q :: body ++ q :: w) = prepend (.word (q :: body ++ [q])) (tokens w) :=
  reading_quoted hq hbody

private theorem isBlanks_replicate (n : Nat) : IsBlanks (List.replicate n CR) := by
  intro c hc
  rw [(List.mem_replicate.mp hc).2]
  rfl

private theorem isRun_append {ends : UInt8 → Bool} {run s : Bytes} (hrun : IsRun ends run)
    (hs : ∀ d ∈ s, ends d = false) : IsRun ends (run ++ s) := by
  cases run with
  | nil => exact hrun.elim
  | cons c run =>
      refine ⟨hrun.1, fun d hd => ?_⟩
      rcases List.mem_append.mp hd with hd | hd
      · exact hrun.2 d hd
      · exact hs d hd

private theorem isRun_mono {ends fewer : UInt8 → Bool} (sub : ∀ c, fewer c = true → ends c = true)
    {run : Bytes} (hrun : IsRun ends run) : IsRun fewer run := by
  cases run with
  | nil => exact hrun.elim
  | cons c run =>
      refine ⟨hrun.1, fun d hd => ?_⟩
      rw [Bool.eq_false_iff]
      intro hends
      have := hrun.2 d hd
      rw [sub d hends] at this
      cases this

private theorem isRun_endsToken {run : Bytes} (hrun : IsRun endsWord run) : IsRun endsToken run :=
  isRun_mono (fun _ hends => endsWord_iff.mpr (.inl hends)) hrun

private theorem endsWord_eq (c : UInt8) : endsWord c = (isBlank c || closesWord c) := by
  simp only [endsWord, closesWord, Bool.or_assoc]

private theorem not_isBlank_of_closesWord {c : UInt8} (hc : closesWord c = true) :
    isBlank c = false := by
  simp only [closesWord, Bool.or_eq_true, beq_iff_eq] at hc
  rcases hc with (rfl | rfl) | rfl <;> rfl

private theorem endsToken_of_closesWord {c : UInt8} (hc : closesWord c = true) :
    endsToken c = true := by
  simp only [closesWord, Bool.or_eq_true, beq_iff_eq] at hc
  rcases hc with (rfl | rfl) | rfl <;> rfl

private theorem isRun_closesWord {run : Bytes} (hrun : IsRun endsWord run) : IsRun closesWord run :=
  isRun_mono (fun c hends => by rw [endsWord_eq, hends, Bool.or_true]) hrun

private theorem tokens_word {run s : Bytes} {c : UInt8} (hrun : IsRun endsWord run)
    (hs : ∀ d ∈ s, endsToken d = false) (hc : endsToken c = true) :
    tokens (run ++ (s ++ c :: w)) = prepend (.word (run ++ s)) (tokens (c :: w)) := by
  rw [← List.append_assoc]
  exact reading_word (isRun_append (isRun_endsToken hrun) hs) hc

private theorem tokens_cut {run s : Bytes} (hrun : IsRun endsWord run)
    (hs : ∀ d ∈ s, endsToken d = false) : tokens (run ++ s) = ([], .cut (run ++ s)) :=
  reading_cut (isRun_append (isRun_endsToken hrun) hs)

private theorem tokens_carry {run : Bytes} {n : Nat} {c : UInt8} (hrun : IsRun endsWord run)
    (hc : endsToken c = true) :
    tokens (run ++ (List.replicate n CR ++ c :: w)) =
      prepend (.word (run ++ List.replicate n CR)) (tokens (List.replicate n CR ++ c :: w)) := by
  have plain : ∀ d ∈ List.replicate n CR, endsToken d = false := by
    intro d hd
    rw [(List.mem_replicate.mp hd).2]
    rfl
  rw [tokens_word hrun plain hc, tokens_blanks (isBlanks_replicate n)]

end Tokens

private theorem relaid_refl (text : Bytes) : Relaid text text := by
  have read := @lexes_reading endsWord text
  generalize (reading endsWord text).1 = ts at read
  generalize (reading endsWord text).2 = e at read
  induction read with
  | done => exact .done
  | @blank c w ts e hc _ ih =>
      have blanks := isBlanks_singleton hc
      exact .gap (by simp) blanks (isGap_of_isBlanks (by simp) blanks) ih
  | comment hbody hc _ ih => exact .comment (g := []) hbody hc hc (by simp [IsBlanks]) (.inl rfl) ih
  | lastComment hbody => exact .lastComment hbody
  | punct hc _ ih => exact .punct hc ih
  | quoted hq hbody _ ih => exact .quoted hq hbody ih
  | unclosed hq hbody => exact .unclosed hq hbody
  | word hrun hc _ ih => exact .word hrun hc trivial ih
  | cut hrun => exact .cut hrun

private theorem RelaidAlike.tokens_eq {text text' : Bytes} (h : RelaidAlike text text') :
    tokens text = tokens text' := by
  induction h with
  | done => rfl
  | gap _ hg hg' _ ih => rw [tokens_blanks hg, tokens_gap hg', ih]
  | comment hbody hc hc' hg hg' _ ih =>
      rw [tokens_comment hbody hc, tokens_comment hbody hc', tokens_blanks hg, ih]
      rcases hg' with rfl | hg'
      · rfl
      · rw [tokens_gap hg']
  | lastComment _ => rfl
  | punct hc _ ih => rw [tokens_punct hc, tokens_punct hc, ih]
  | quoted hq hbody _ ih => rw [tokens_quoted hq hbody, tokens_quoted hq hbody, ih]
  | unclosed _ _ => rfl
  | word hrun hc behind _ ih =>
      obtain ⟨n, d, x, d', x', left, hd, rfl, hd'⟩ := behind
      rw [left] at ih ⊢
      rw [tokens_carry hrun hd, tokens_carry hrun hd', ih]
  | cut _ => rfl

private theorem carry_of_tokens {run w v : Bytes} {ts : List Token} (hrun : IsRun endsWord run)
    (first : (tokens (run ++ w)).1 = .word (run ++ v) :: ts) :
    ∃ c x, w = v ++ c :: x ∧ endsToken c = true := by
  obtain ⟨s, rest, rfl, hs, rfl | ⟨c, x, rfl, hc⟩⟩ := exists_split endsToken w
  · rw [List.append_nil, tokens_cut hrun hs] at first
    cases first
  · rw [tokens_word hrun hs hc] at first
    have same := Token.word.inj (List.cons.inj first).1
    rw [List.append_cancel_left same]
    exact ⟨c, x, rfl, hc⟩

private theorem CarriesLast.carry {run w : Bytes} {c : UInt8} (last : CarriesLast (run ++ c :: w))
    (hrun : IsRun endsWord run) (hc : endsWord c = true) :
    ∃ n d x, c :: w = List.replicate n CR ++ d :: x ∧ endsToken d = true := by
  obtain ⟨s, rest, split, hs, hrest⟩ := exists_split endsToken (c :: w)
  have carried : s ≠ [] → ∃ t, s = CR :: t := by
    intro hne
    obtain ⟨d, t, rfl⟩ := List.exists_cons_of_ne_nil hne
    obtain ⟨rfl, -⟩ := List.cons.inj split
    rcases endsWord_iff.mp hc with hends | rfl
    · rw [hs c (by simp)] at hends
      cases hends
    · exact ⟨t, rfl⟩
  rw [split] at last
  rcases hrest with rfl | ⟨d, x, rfl, hd⟩
  · rw [List.append_nil] at split last
    have inside : CR ∈ s := by
      obtain ⟨t, rfl⟩ := carried (by rw [← split]; simp)
      simp
    have none := last.cut (run ++ s) (by rw [tokens_cut hrun hs])
    exact absurd (List.mem_append.mpr (.inr inside)) none
  · have member : .word (run ++ s) ∈ (tokens (run ++ (s ++ d :: x))).1 := by
      rw [tokens_word hrun hs hd]
      exact List.mem_cons_self
    have unquoted := not_isQuoted_of_isRun (isRun_append (isRun_endsToken hrun) hs)
    obtain ⟨core, n, hcore, same⟩ := last.words _ member unquoted
    have only : ∀ b ∈ s, b = CR := by
      rcases List.append_eq_append_iff.mp same with ⟨more, rfl, tail⟩ | ⟨more, -, tail⟩
      · -- what the core has behind the run would begin with a carriage return
        obtain rfl : more = [] := by
          by_contra hne
          obtain ⟨e, more, rfl⟩ := List.exists_cons_of_ne_nil hne
          obtain ⟨t, ht⟩ := carried (by rw [tail]; simp)
          obtain ⟨rfl, -⟩ := List.cons.inj (ht.symm.trans tail)
          exact hcore (by simp)
        intro b hb
        rw [tail] at hb
        exact (List.mem_replicate.mp hb).2
      · intro b hb
        have : b ∈ List.replicate n CR := by
          rw [tail]
          exact List.mem_append.mpr (.inr hb)
        exact (List.mem_replicate.mp this).2
    refine ⟨s.length, d, x, ?_, hd⟩
    rw [split, ← List.eq_replicate_of_mem only]

private theorem CarriesLast.mono {text w : Bytes} (last : CarriesLast text)
    (among : ∀ t ∈ (tokens w).1, t ∈ (tokens text).1) (same : (tokens w).2 = (tokens text).2) :
    CarriesLast w :=
  ⟨fun v hv => last.words v (among _ hv), fun v hv => last.cut v (same.symm.trans hv)⟩

private theorem CarriesLast.of_eq {text w : Bytes} (last : CarriesLast text)
    (same : tokens text = tokens w) : CarriesLast w := by
  refine last.mono ?_ (by rw [same])
  intro t ht
  rwa [same]

private theorem CarriesLast.tail {text w : Bytes} {t : Token} (last : CarriesLast text)
    (split : tokens text = prepend t (tokens w)) : CarriesLast w := by
  refine last.mono ?_ (by rw [split]; rfl)
  intro u hu
  rw [split]
  exact List.mem_cons_of_mem t hu

private theorem Relaid.alike {text text' : Bytes} (h : Relaid text text') (last : CarriesLast text)
    (same : (tokens text).1 = (tokens text').1) : RelaidAlike text text' := by
  induction h with
  | done => exact .done
  | gap hne hg hg' _ ih =>
      refine .gap hne hg hg' (ih ?_ ?_)
      · exact last.of_eq (tokens_blanks hg)
      · rwa [tokens_blanks hg, tokens_gap hg'] at same
  | @comment body g g' w w' c c' hbody hc hc' hg hg' _ ih =>
      have skipped : tokens (g' ++ w') = tokens w' := by
        rcases hg' with rfl | hg'
        · rfl
        · exact tokens_gap hg'
      refine .comment hbody hc hc' hg hg' (ih ?_ ?_)
      · exact last.of_eq ((tokens_comment hbody hc).trans (tokens_blanks hg))
      · rwa [tokens_comment hbody hc, tokens_comment hbody hc', tokens_blanks hg, skipped] at same
  | lastComment hbody => exact .lastComment hbody
  | punct hc _ ih =>
      rw [tokens_punct hc, tokens_punct hc] at same
      exact .punct hc (ih (last.tail (tokens_punct hc)) (List.cons.inj same).2)
  | quoted hq hbody _ ih =>
      rw [tokens_quoted hq hbody, tokens_quoted hq hbody] at same
      exact .quoted hq hbody (ih (last.tail (tokens_quoted hq hbody)) (List.cons.inj same).2)
  | unclosed hq hbody => exact .unclosed hq hbody
  | @word run w w' c hrun hc _ _ ih =>
      obtain ⟨n, d, x, left, hd⟩ := last.carry hrun hc
      have read : tokens (run ++ c :: w) =
          prepend (.word (run ++ List.replicate n CR)) (tokens (c :: w)) := by
        rw [left]
        exact tokens_carry hrun hd
      obtain ⟨d', x', rfl, hd'⟩ := carry_of_tokens hrun (same.symm.trans (congrArg Prod.fst read))
      rw [read, tokens_carry hrun hd'] at same
      exact .word hrun hc ⟨n, d, x, d', x', left, hd, rfl, hd'⟩
        (ih (last.tail read) (List.cons.inj same).2)
  | cut hrun => exact .cut hrun

private theorem Closed.word {run w : Bytes} {c : UInt8} (closed : Closed (run ++ c :: w))
    (hrun : IsRun endsWord run) (hc : endsWord c = true) :
    closesWord c = true ∧ Closed (c :: w) := by
  obtain ⟨s, rest, split, hs, hrest⟩ := exists_split closesWord (c :: w)
  have long : IsRun closesWord (run ++ s) := isRun_append (isRun_closesWord hrun) hs
  unfold Closed at closed
  rw [reading_word hrun hc, split, ← List.append_assoc] at closed
  rcases hrest with rfl | ⟨d, x, rfl, hd⟩
  · rw [List.append_nil, reading_cut long] at closed
    cases congrArg Prod.fst closed
  · rw [reading_word long hd] at closed
    have first := Token.word.inj (List.cons.inj (congrArg Prod.fst closed)).1
    obtain rfl : s = [] := List.append_right_eq_self.mp first
    rw [List.append_nil] at closed
    obtain ⟨rfl, rfl⟩ := List.cons.inj split
    exact ⟨hd, prepend_inj closed⟩

private theorem Relaid.first {c : UInt8} {w w' : Bytes} (h : Relaid (c :: w) w')
    (hc : isBlank c = false) : ∃ x', w' = c :: x' := by
  generalize htext : c :: w = text at h
  cases h with
  | done => cases htext
  | gap hne hg _ _ =>
      obtain ⟨d, g, rfl⟩ := List.exists_cons_of_ne_nil hne
      obtain ⟨rfl, -⟩ := List.cons.inj htext
      rw [hg c (by simp)] at hc
      cases hc
  | comment _ _ _ _ _ _ =>
      obtain ⟨rfl, -⟩ := List.cons.inj htext
      exact ⟨_, rfl⟩
  | punct _ _ =>
      obtain ⟨rfl, -⟩ := List.cons.inj htext
      exact ⟨_, rfl⟩
  | quoted _ _ _ =>
      obtain ⟨rfl, -⟩ := List.cons.inj htext
      exact ⟨_, rfl⟩
  | @word run _ _ _ hrun _ _ _ =>
      cases run with
      | nil => exact hrun.elim
      | cons b run =>
          obtain ⟨rfl, -⟩ := List.cons.inj htext
          exact ⟨_, rfl⟩
  | lastComment _ => exact ⟨_, htext.symm⟩
  | unclosed _ _ => exact ⟨_, htext.symm⟩
  | cut _ => exact ⟨_, htext.symm⟩

private theorem Relaid.alike_of_closed {text text' : Bytes} (h : Relaid text text')
    (closed : Closed text) : RelaidAlike text text' := by
  induction h with
  | done => exact .done
  | gap hne hg hg' _ ih =>
      refine .gap hne hg hg' (ih ?_)
      rwa [Closed, reading_blanks hg, reading_blanks hg] at closed
  | comment hbody hc hc' hg hg' _ ih =>
      refine .comment hbody hc hc' hg hg' (ih ?_)
      rwa [Closed, reading_comment hbody hc, reading_comment hbody hc, reading_blanks hg,
        reading_blanks hg] at closed
  | lastComment hbody => exact .lastComment hbody
  | punct hc _ ih =>
      rw [Closed, reading_punct hc, reading_punct hc] at closed
      exact .punct hc (ih (prepend_inj closed))
  | quoted hq hbody _ ih =>
      rw [Closed, reading_quoted hq hbody, reading_quoted hq hbody] at closed
      exact .quoted hq hbody (ih (prepend_inj closed))
  | unclosed hq hbody => exact .unclosed hq hbody
  | @word run w w' c hrun hc _ rest ih =>
      obtain ⟨hcloses, closed⟩ := closed.word hrun hc
      obtain ⟨x', rfl⟩ := Relaid.first rest (not_isBlank_of_closesWord hcloses)
      have hends := endsToken_of_closesWord hcloses
      exact .word hrun hc ⟨0, c, w, c, x', rfl, hends, rfl, hends⟩ (ih closed)
  | cut hrun => exact .cut hrun

def Differs (text : Bytes) : Prop :=
  ∃ text₁ text₂, Relaid text text₁ ∧ Relaid text text₂ ∧ (tokens text₁).1 ≠ (tokens text₂).1

private theorem Differs.extend {text w : Bytes} (h : Differs w) (read : List Token)
    (before : Bytes → Bytes) (step : ∀ x, Relaid w x →
      Relaid text (before x) ∧ (tokens (before x)).1 = read ++ (tokens x).1) : Differs text := by
  obtain ⟨x₁, x₂, h₁, h₂, differ⟩ := h
  refine ⟨before x₁, before x₂, (step x₁ h₁).1, (step x₂ h₂).1, ?_⟩
  rw [(step x₁ h₁).2, (step x₂ h₂).2]
  exact fun same => differ (List.append_cancel_left same)

private theorem differs_of_blank {run w : Bytes} {c : UInt8} (hrun : IsRun endsWord run)
    (hc : isBlank c = true) : Differs (run ++ c :: w) := by
  have hends : endsWord c = true := by rw [endsWord_eq, hc, Bool.true_or]
  have relaid : ∀ g', g' ≠ [] → IsBlanks g' → Relaid (run ++ c :: w) (run ++ (g' ++ w)) := by
    intro g' hne hg'
    exact .word hrun hends trivial (.gap (by simp) (isBlanks_singleton hc)
      (isGap_of_isBlanks hne hg') (relaid_refl w))
  have space := relaid [SP] (by simp) (forall_mem_of_all (by decide))
  have carriage := relaid [CR, SP] (by simp) (forall_mem_of_all (by decide))
  refine ⟨_, _, space, carriage, ?_⟩
  have plain := tokens_carry (n := 0) (c := SP) (w := w) hrun rfl
  have carried := tokens_carry (n := 1) (c := SP) (w := w) hrun rfl
  intro same
  have words := Token.word.inj (List.cons.inj ((congrArg Prod.fst plain).symm.trans
    (same.trans (congrArg Prod.fst carried)))).1
  cases List.append_cancel_left words

private theorem closed_or_differs (text : Bytes) : Closed text ∨ Differs text := by
  have read := @lexes_reading endsWord text
  generalize (reading endsWord text).1 = ts at read
  generalize (reading endsWord text).2 = e at read
  induction read with
  | done => exact .inl rfl
  | @blank c w ts e hc _ ih =>
      have blanks := isBlanks_singleton hc
      refine ih.imp ?_ fun differs => differs.extend [] ([c] ++ ·) fun x hx => ⟨?_, ?_⟩
      · intro closed
        rwa [Closed, reading_blank hc, reading_blank hc]
      · exact .gap (by simp) blanks (isGap_of_isBlanks (by simp) blanks) hx
      · rw [tokens_blanks blanks, List.nil_append]
  | @comment body c w ts e hbody hc _ ih =>
      refine ih.imp ?_ fun differs =>
        differs.extend [] (fun x => HASH :: body ++ c :: x) fun x hx => ⟨?_, ?_⟩
      · intro closed
        rwa [Closed, reading_comment hbody hc, reading_comment hbody hc]
      · exact .comment (g := []) hbody hc hc (by simp [IsBlanks]) (.inl rfl) hx
      · rw [tokens_comment hbody hc, List.nil_append]
  | lastComment hbody =>
      exact .inl ((scan_eq_of_lexes (.lastComment hbody)).trans
        (scan_eq_of_lexes (.lastComment hbody)).symm)
  | @punct c t w ts e hc _ ih =>
      refine ih.imp ?_ fun differs => differs.extend [t] (c :: ·) fun x hx => ⟨.punct hc hx, ?_⟩
      · intro closed
        rw [Closed, reading_punct hc, reading_punct hc, closed]
      · rw [tokens_punct hc]
        rfl
  | @quoted q body w ts e hq hbody _ ih =>
      refine ih.imp ?_ fun differs => differs.extend [.word (q :: body ++ [q])]
        (fun x => q :: body ++ q :: x) fun x hx => ⟨.quoted hq hbody hx, ?_⟩
      · intro closed
        rw [Closed, reading_quoted hq hbody, reading_quoted hq hbody, closed]
      · rw [tokens_quoted hq hbody]
        rfl
  | unclosed hq hbody =>
      exact .inl ((scan_eq_of_lexes (.unclosed hq hbody)).trans
        (scan_eq_of_lexes (.unclosed hq hbody)).symm)
  | @word run c w ts e hrun hc _ ih =>
      by_cases hcloses : closesWord c = true
      · refine ih.imp ?_ fun differs =>
          differs.extend [.word run] (run ++ ·) fun x hx => ⟨.word hrun hc trivial hx, ?_⟩
        · intro closed
          rw [Closed, reading_word hrun hc, reading_word (isRun_closesWord hrun) hcloses, closed]
        · obtain ⟨x, rfl⟩ := hx.first (not_isBlank_of_closesWord hcloses)
          have hends := endsToken_of_closesWord hcloses
          exact congrArg Prod.fst (reading_word (isRun_endsToken hrun) hends)
      · rw [endsWord_eq, Bool.eq_false_iff.mpr hcloses, Bool.or_false] at hc
        exact .inr (differs_of_blank hrun hc)
  | cut hrun =>
      refine .inl ?_
      rw [Closed, reading_cut hrun, reading_cut (isRun_closesWord hrun)]

/-- An accepted text is accepted with the same tree in every layout exactly if its unquoted words
stand before punctuation.  It is in one other layout if that one has the same carriage returns
behind every unquoted word, and, if carriage returns come last in the words of the text, only
then. -/
theorem layout_ignored_iff (text : Bytes) (config : NginxConfig)
    (accepted : parse text = some (.ok (some config))) :
    ((∀ text', Relaid text text' → parse text' = some (.ok (some config))) ↔ Closed text) ∧
      ∀ text', Relaid text text' →
        (RelaidAlike text text' → parse text' = some (.ok (some config))) ∧
          (CarriesLast text → parse text' = some (.ok (some config)) →
            RelaidAlike text text') := by
  have same_tokens : ∀ {text₁ text₂}, parse text₁ = some (.ok (some config)) →
      parse text₂ = some (.ok (some config)) → (tokens text₁).1 = (tokens text₂).1 := by
    intro text₁ text₂ accepted₁ accepted₂
    rw [parse_accepts_iff] at accepted₁ accepted₂
    exact tokens_eq_of_derives accepted₁.2 accepted₂.2
  have enough : ∀ {text'}, RelaidAlike text text' → parse text' = some (.ok (some config)) := by
    intro text' alike
    rw [parse_accepts_iff] at accepted ⊢
    rwa [← alike.tokens_eq]
  constructor
  · constructor
    · intro every
      rcases closed_or_differs text with closed | ⟨text₁, text₂, h₁, h₂, differ⟩
      · exact closed
      · exact absurd (same_tokens (every text₁ h₁) (every text₂ h₂)) differ
    · intro closed text' relaid
      exact enough (relaid.alike_of_closed closed)
  · intro text' relaid
    exact ⟨enough, fun last accepted' => relaid.alike last (same_tokens accepted accepted')⟩

private theorem relaid_statement {carry : Bytes → Bytes → Prop} {c : UInt8} {g' : Bytes}
    (hc : isBlank c = true) (hg' : IsGap g')
    (behind : carry (c :: lit "b;") (g' ++ lit "b;")) (closing : carry (lit ";") (lit ";")) :
    RelaidWith carry (lit "a" ++ c :: lit "b;") (lit "a" ++ (g' ++ lit "b;")) := by
  have second : RelaidWith carry (lit "b" ++ lit ";") (lit "b" ++ lit ";") :=
    .word (c := SEMICOLON) ⟨rfl, by simp⟩ rfl closing (.punct (t := .semicolon) rfl .done)
  have hends : endsWord c = true := by simp [endsWord, hc]
  exact .word ⟨rfl, by simp⟩ hends behind (.gap (by simp) (isBlanks_singleton hc) hg' second)

theorem layout_ignored_line_feed :
    parse (lit "a b;") = some (.ok (some ⟨[.mk [lit "a", lit "b"] none]⟩)) ∧
      parse (lit "a\n#c\nb;") = some (.ok (some ⟨[.mk [lit "a", lit "b"] none]⟩)) := by
  have accepted : parse (lit "a b;") = some (.ok (some ⟨[.mk [lit "a", lit "b"] none]⟩)) := rfl
  have remark : IsRemark (lit "c") := forall_mem_of_all (by decide)
  have hgap : IsGap (lit "\n#c\n") :=
    ⟨lit "\n", [lit "c"], by decide, forall_mem_of_all (by decide), by simpa using remark, rfl⟩
  have alike : RelaidAlike (lit "a b;") (lit "a\n#c\nb;") :=
    relaid_statement (c := SP) rfl hgap ⟨0, SP, lit "b;", LF, lit "#c\nb;", rfl, rfl, rfl, rfl⟩
      ⟨0, SEMICOLON, [], SEMICOLON, [], rfl, rfl, rfl, rfl⟩
  have relaid : Relaid (lit "a b;") (lit "a\n#c\nb;") :=
    relaid_statement (c := SP) rfl hgap trivial trivial
  exact ⟨accepted, ((layout_ignored_iff _ _ accepted).2 _ relaid).1 alike⟩

/-- With a line end of two bytes in place of one the first word gets one of them. -/
theorem carriage_return_kept :
    parse (lit "a\nb;") = some (.ok (some ⟨[.mk [lit "a", lit "b"] none]⟩)) ∧
      Relaid (lit "a\nb;") (lit "a\r\nb;") ∧
      parse (lit "a\r\nb;") = some (.ok (some ⟨[.mk [lit "a\r", lit "b"] none]⟩)) ∧
      parse (lit "a\r\nb;") ≠ parse (lit "a\nb;") := by
  have hgap : IsGap (lit "\r\n") :=
    isGap_of_isBlanks (by decide) (forall_mem_of_all (by decide))
  have first : parse (lit "a\nb;") = some (.ok (some ⟨[.mk [lit "a", lit "b"] none]⟩)) := rfl
  have second : parse (lit "a\r\nb;") = some (.ok (some ⟨[.mk [lit "a\r", lit "b"] none]⟩)) := rfl
  refine ⟨first, relaid_statement (c := LF) rfl hgap trivial trivial, second, ?_⟩
  intro same
  rw [first, second] at same
  have words := congrArg (List.map NginxConfigStatement.tokens)
    (NginxConfig.mk.inj (Option.some.inj (Except.ok.inj (Option.some.inj same))))
  revert words
  decide

end Wnza.Config.Layout
