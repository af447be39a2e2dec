/- GID: Wnza/Server/HandlerTable
   generality: I
   source: src/status_request_handler.cc (get_request_records), src/log_helper.cc (log_all_handlers)
   digest: The table of the handlers, written to the log and read back from it. -/

import Wnza.Server.StatusPage

set_option autoImplicit false
set_option relaxedAutoImplicit false

namespace Wnza.Server.HandlerTable

open Wnza.Foundation.InputStream
open Wnza.Foundation.Substring
open Wnza.Http.Text
open Wnza.Config.Lexer
open Wnza.Config.Parser
open Wnza.Config.Acceptance
open Wnza.Config.Printing
open Wnza.Config.Tree
open Wnza.Handler.Status
open Wnza.Server.LogHelper
open Wnza.Server.StatusPage
open Wnza.Server.Table

/-- One row for each location: the name of its handler in a column, and its URI. -/
def handlerTable (results : List LocationParseResult) : Bytes :=
  results.flatMap (fun res => column res.handlerName ++ res.uri ++ lit "\r\n")

/-- What a line stores as one word: it has no space, and no line end that would break the line. -/
def Unbroken (s : Bytes) : Prop := SP ∉ s ∧ LF ∉ s

def decoded (count : Nat) (s : Bytes) : Bytes :=
  (s.foldl HandlerScan.next ⟨[], count, []⟩).allHandlers

def firstLine (s : Bytes) : Bytes := s.takeWhile (· ≠ LF)

section Decoding

private theorem foldl_next_allHandlers (s allHandlers temp : Bytes) (count : Nat) :
    (s.foldl HandlerScan.next ⟨allHandlers, count, temp⟩).allHandlers =
      allHandlers ++ (s.foldl HandlerScan.next ⟨[], count, temp⟩).allHandlers := by
  induction s generalizing allHandlers temp count with
  | nil => simp
  | cons c s ih =>
      rw [List.foldl_cons, List.foldl_cons]
      by_cases hc : c = SP
      · simp only [HandlerScan.next, if_pos hc, List.nil_append]
        rw [ih, ih (if count % 2 = 0 then column temp else temp ++ lit "\r\n"), List.append_assoc]
      · simp only [HandlerScan.next, if_neg hc]
        exact ih allHandlers (temp ++ [c]) count

private theorem foldl_next_parity (s allHandlers temp : Bytes) (count : Nat) :
    (s.foldl HandlerScan.next ⟨allHandlers, count + 2, temp⟩).allHandlers =
      (s.foldl HandlerScan.next ⟨allHandlers, count, temp⟩).allHandlers := by
  induction s generalizing allHandlers temp count with
  | nil => rfl
  | cons c s ih =>
      rw [List.foldl_cons, List.foldl_cons]
      by_cases hc : c = SP
      · simp only [HandlerScan.next, if_pos hc, Nat.add_mod_right]
        exact ih _ [] (count + 1)
      · simp only [HandlerScan.next, if_neg hc]
        exact ih allHandlers (temp ++ [c]) count

private theorem foldl_next_word {t : Bytes} (ht : SP ∉ t) (allHandlers temp : Bytes) (count : Nat) :
    t.foldl HandlerScan.next ⟨allHandlers, count, temp⟩ = ⟨allHandlers, count, temp ++ t⟩ := by
  induction t generalizing temp with
  | nil => simp
  | cons c t ih =>
      have hc : c ≠ SP := fun h => ht (by simp [h])
      rw [List.foldl_cons, HandlerScan.next, if_neg hc, ih (fun h => ht (by simp [h])),
        List.append_assoc, List.singleton_append]

variable {s t : Bytes}

private theorem decoded_of_notMem (ht : SP ∉ t) (count : Nat) : decoded count t = [] := by
  rw [decoded, foldl_next_word ht]

private theorem decoded_word (ht : SP ∉ t) (count : Nat) :
    decoded count (t ++ SP :: s) =
      (if count % 2 = 0 then column t else t ++ lit "\r\n") ++ decoded (count + 1) s := by
  rw [decoded, List.foldl_append, foldl_next_word ht, List.foldl_cons, HandlerScan.next, if_pos rfl,
    foldl_next_allHandlers]
  rfl

private theorem decoded_name (ht : SP ∉ t) : decoded 0 (t ++ SP :: s) = column t ++ decoded 1 s :=
  decoded_word ht 0

private theorem decoded_uri (ht : SP ∉ t) :
    decoded 1 (t ++ SP :: s) = t ++ (crlf ++ decoded 0 s) := by
  have again : decoded (1 + 1) s = decoded 0 s := foldl_next_parity s [] [] 0
  have lineEnd : lit "\r\n" = crlf := by decide
  rw [decoded_word ht 1, again, lineEnd, if_neg (by decide), List.append_assoc]

private theorem mem_column {c : UInt8} (hc : c ∈ column t) : c ∈ t ∨ c = SP := by
  rcases List.mem_append.mp hc with hc | hc
  · exact .inl hc
  · exact .inr (List.eq_of_mem_replicate hc)

private theorem mem_next {c d : UInt8} {scan : HandlerScan} :
    (c ∈ (scan.next d).allHandlers →
      (c = SP ∨ c = CR ∨ c = LF) ∨ c ∈ scan.allHandlers ∨ c ∈ scan.temp) ∧
    (c ∈ (scan.next d).temp → c ∈ scan.temp ∨ c = d) := by
  unfold HandlerScan.next
  by_cases hd : d = SP
  · rw [if_pos hd]
    refine ⟨fun hc => ?_, fun hc => absurd hc List.not_mem_nil⟩
    rcases List.mem_append.mp hc with stored | added
    · exact .inr (.inl stored)
    · split_ifs at added
      · rcases mem_column added with temp | space
        · exact .inr (.inr temp)
        · exact .inl (.inl space)
      · rcases List.mem_append.mp added with temp | lineEnd
        · exact .inr (.inr temp)
        · have lineEnd : c ∈ crlf := lineEnd
          simp only [List.mem_cons, List.not_mem_nil, or_false] at lineEnd
          exact .inl (.inr lineEnd)
  · rw [if_neg hd]
    refine ⟨fun hc => .inr (.inl hc), fun hc => ?_⟩
    rcases List.mem_append.mp hc with temp | last
    · exact .inl temp
    · exact .inr (List.mem_singleton.mp last)

private theorem mem_foldl_next {c : UInt8} {scan : HandlerScan}
    (hc : c ∈ (s.foldl HandlerScan.next scan).allHandlers) :
    (c = SP ∨ c = CR ∨ c = LF) ∨ c ∈ scan.allHandlers ∨ c ∈ scan.temp ∨ c ∈ s := by
  induction s generalizing scan with
  | nil => exact .inr (.inl hc)
  | cons d s ih =>
      rw [List.foldl_cons] at hc
      rcases ih hc with blank | stored | temp | behind
      · exact .inl blank
      · rcases mem_next.1 stored with blank | stored | temp
        · exact .inl blank
        · exact .inr (.inl stored)
        · exact .inr (.inr (.inl temp))
      · rcases mem_next.2 temp with temp | rfl
        · exact .inr (.inr (.inl temp))
        · exact .inr (.inr (.inr List.mem_cons_self))
      · exact .inr (.inr (.inr (List.mem_cons_of_mem d behind)))

private theorem mem_decoded {c : UInt8} {count : Nat} (hc : c ∈ decoded count s) :
    (c = SP ∨ c = CR ∨ c = LF) ∨ c ∈ s := by
  rcases mem_foldl_next hc with blank | stored | temp | inside
  · exact .inl blank
  · cases stored
  · cases temp
  · exact .inr inside

end Decoding

section Lines

variable {s t : Bytes}

private theorem firstLine_append (ht : LF ∉ t) : firstLine (t ++ s) = t ++ firstLine s := by
  refine List.takeWhile_append_of_pos (fun c hc => decide_eq_true ?_)
  rintro rfl
  exact ht hc

private theorem firstLine_space : firstLine (SP :: s) = SP :: firstLine s := by
  exact List.takeWhile_cons_of_pos (by decide)

private theorem firstLine_cut (ht : LF ∉ t) : firstLine (t ++ LF :: s) = t := by
  rw [firstLine_append ht, firstLine, List.takeWhile_cons_of_neg (by decide), List.append_nil]

private theorem exists_break (h : ¬ Unbroken s) :
    ∃ t c rest, s = t ++ c :: rest ∧ Unbroken t ∧ (c = SP ∨ c = LF) := by
  obtain ⟨t, rest, rfl, ht, hrest⟩ := exists_split (fun c => c == SP || c == LF) s
  have unbroken : Unbroken t :=
    ⟨fun hc => absurd (ht SP hc) (by decide), fun hc => absurd (ht LF hc) (by decide)⟩
  rcases hrest with rfl | ⟨c, x, rfl, hc⟩
  · rw [List.append_nil] at h
    exact absurd unbroken h
  · exact ⟨t, c, x, rfl, unbroken, by simpa using hc⟩

end Lines

section Names

private theorem head_of_isWord {name : Bytes} (h : IsWord name) :
    ∃ c w, name = c :: w ∧ c ≠ SP := by
  rcases h with hrun | ⟨q, body, hq, -, rfl⟩
  · cases name with
    | nil => exact absurd hrun id
    | cons c w =>
        refine ⟨c, w, rfl, ?_⟩
        rintro rfl
        exact absurd hrun.1 (by decide)
  · refine ⟨q, body ++ [q], rfl, ?_⟩
    rintro rfl
    exact absurd hq (by decide)

private theorem last_of_isWord {t m : Bytes} (h : IsWord (t ++ SP :: m)) :
    ∃ m' v, m = m' ++ [v] ∧ v ≠ SP ∧ v ≠ CR ∧ v ≠ LF := by
  rcases h with hrun | ⟨q, body, hq, -, same⟩
  · cases t with
    | nil => exact absurd hrun.1 (by decide)
    | cons c t => exact absurd (hrun.2 SP (by simp)) (by decide)
  · have quote : q ≠ SP ∧ q ≠ CR ∧ q ≠ LF := by
      rcases hq with rfl | rfl <;> decide
    rcases List.eq_nil_or_concat m with rfl | ⟨m', v, rfl⟩
    · have last : SP = q := (List.append_inj' same rfl).2 |> List.cons.inj |>.1
      exact absurd last.symm quote.1
    · rw [List.concat_eq_append, ← List.cons_append, ← List.append_assoc] at same
      have last : v = q := (List.append_inj' same rfl).2 |> List.cons.inj |>.1
      rw [last]
      exact ⟨m', q, List.concat_eq_append, quote⟩

end Names

section Rows

variable {name uri s x : Bytes}

private theorem decoded_row (hname : Unbroken name) (huri : Unbroken uri) :
    decoded 0 (firstLine (name ++ SP :: (uri ++ SP :: s))) =
      column name ++ (uri ++ (crlf ++ decoded 0 (firstLine s))) := by
  rw [firstLine_append hname.2, firstLine_space, firstLine_append huri.2, firstLine_space,
    decoded_name hname.1, decoded_uri huri.1]

private theorem decoded_ne_of_uri (hname : Unbroken name) (huri : ¬ Unbroken uri) :
    decoded 0 (firstLine (name ++ SP :: (uri ++ SP :: s))) ≠
      column name ++ (uri ++ (crlf ++ x)) := by
  obtain ⟨t, c, rest, rfl, ht, rfl | rfl⟩ := exists_break huri
  · intro same
    rw [firstLine_append hname.2, firstLine_space, decoded_name hname.1, List.append_assoc,
      List.cons_append, firstLine_append ht.2, firstLine_space, decoded_uri ht.1,
      List.append_cancel_left_eq, List.append_assoc, List.append_cancel_left_eq] at same
    exact absurd (List.cons.inj same).1 (by decide)
  · intro same
    rw [firstLine_append hname.2, firstLine_space, decoded_name hname.1, List.append_assoc,
      List.cons_append, firstLine_cut ht.2, decoded_of_notMem ht.1,
      List.append_cancel_left_eq] at same
    have longer := congrArg List.length same
    simp at longer

private theorem decoded_one_ne (s y : Bytes) : decoded 1 s ≠ SP :: y := by
  by_cases space : SP ∈ s
  · obtain ⟨t, rest, rfl, ht⟩ := List.eq_append_cons_of_mem space
    rw [decoded_uri ht]
    cases t with
    | nil =>
        intro same
        exact absurd (List.cons.inj same).1 (by decide)
    | cons c t =>
        intro same
        exact ht (by simp [(List.cons.inj same).1])
  · rw [decoded_of_notMem space]
    simp

private theorem decoded_one_ne_row (m : Bytes) (hx : ∀ y, x ≠ SP :: y) :
    decoded 1 (firstLine (m ++ SP :: (uri ++ SP :: s))) ≠ m ++ (uri ++ (crlf ++ x)) := by
  by_cases hm : Unbroken m
  · rw [firstLine_append hm.2, firstLine_space, decoded_uri hm.1]
    intro same
    rw [List.append_cancel_left_eq] at same
    match uri with
    | [] =>
        -- the empty URI is taken for a name, and its column begins with a space
        simp only [List.nil_append, List.append_cancel_left_eq, firstLine_space] at same
        have space := @decoded_name (firstLine s) [] List.not_mem_nil
        rw [List.nil_append, same] at space
        exact hx _ space
    | [c] => exact absurd (List.cons.inj (List.cons.inj same).2).1 (by decide)
    | c :: d :: rest =>
        obtain ⟨rfl, same⟩ := List.cons.inj same
        obtain ⟨rfl, same⟩ := List.cons.inj same
        have cut : firstLine (CR :: LF :: rest ++ SP :: s) = [CR] :=
          firstLine_cut (t := [CR]) (by decide)
        rw [cut, decoded_of_notMem (by decide)] at same
        simp at same
  · obtain ⟨t, c, rest, rfl, ht, rfl | rfl⟩ := exists_break hm
    · intro same
      rw [List.append_assoc, List.cons_append, firstLine_append ht.2, firstLine_space,
        decoded_uri ht.1, List.append_assoc, List.append_cancel_left_eq] at same
      exact absurd (List.cons.inj same).1 (by decide)
    · intro same
      rw [List.append_assoc, List.cons_append, firstLine_cut ht.2, decoded_of_notMem ht.1] at same
      simp at same

private theorem append_eq_append_cons {a b m r : Bytes} {v : UInt8} (h : a ++ b = m ++ v :: r)
    (hv : v ∉ a) : ∃ w, m = a ++ w ∧ b = w ++ v :: r := by
  obtain ⟨w, rfl, rfl⟩ | ⟨w, rfl, hw⟩ := List.append_eq_append_iff.mp h
  · exact ⟨w, rfl, rfl⟩
  · cases w with
    | nil => exact ⟨[], by simp, hw.symm⟩
    | cons c w =>
        rw [(List.cons.inj hw).1] at hv
        exact absurd (by simp) hv

private theorem decoded_padded_ne {v : UInt8} (n : Nat) (m y r : Bytes)
    (hv : v ≠ SP ∧ v ≠ CR ∧ v ≠ LF) :
    List.replicate (n + 1) SP ++ decoded 1 (firstLine (m ++ v :: y)) ≠ m ++ v :: r := by
  intro same
  rw [List.replicate_succ, List.cons_append] at same
  cases m with
  | nil => exact hv.1 (List.cons.inj same).1.symm
  | cons c m =>
      rw [List.cons_append, List.cons_append, List.cons.injEq] at same
      obtain ⟨rfl, same⟩ := same
      have read := @decoded_uri (firstLine (m ++ v :: y)) [] List.not_mem_nil
      rw [List.nil_append, List.nil_append] at read
      rw [firstLine_space, read, ← List.append_assoc] at same
      -- the column ends the row, so the name has a line end there, and nothing is read behind it
      obtain ⟨w, rfl, found⟩ := append_eq_append_cons same (by simp [hv])
      have line : firstLine (List.replicate n SP ++ crlf ++ w ++ v :: y) =
          List.replicate n SP ++ [CR] := by
        have plain : LF ∉ List.replicate n SP ++ [CR] := by
          have space : LF ≠ SP := by decide
          have cr : LF ≠ CR := by decide
          simp [space, cr]
        simpa using @firstLine_cut (w ++ v :: y) _ plain
      have inside : v ∈ decoded 0 (List.replicate n SP ++ [CR]) := by
        rw [← line, found]
        simp
      rcases mem_decoded inside with blank | visible
      · simp [hv] at blank
      · simp [hv] at visible

private theorem decoded_ne_of_name (word : IsWord name) (broken : ¬ Unbroken name)
    (hx : ∀ y, x ≠ SP :: y) :
    decoded 0 (firstLine (name ++ SP :: (uri ++ SP :: s))) ≠
      column name ++ (uri ++ (crlf ++ x)) := by
  obtain ⟨t, c, m, rfl, ht, rfl | rfl⟩ := exists_break broken
  · intro same
    rw [List.append_assoc, List.cons_append, firstLine_append ht.2, firstLine_space,
      decoded_name ht.1, column, column, List.append_assoc t, List.append_assoc (t ++ SP :: m),
      List.append_assoc t, List.append_cancel_left_eq, List.cons_append] at same
    match padding : intervalLen - t.length with
    | 0 =>
        rw [padding] at same
        exact decoded_one_ne _ _ same
    | 1 =>
        have long : intervalLen - (t ++ SP :: m).length = 0 := by
          rw [List.length_append, List.length_cons]
          omega
        rw [padding, long] at same
        exact decoded_one_ne_row m hx (List.cons.inj same).2
    | n + 2 =>
        obtain ⟨m', v, rfl, hv⟩ := last_of_isWord word
        rw [padding, List.replicate_succ, List.cons_append, List.cons.injEq,
          List.append_assoc m', List.append_assoc m'] at same
        exact decoded_padded_ne n m' _ _ hv same.2
  · intro same
    rw [List.append_assoc, List.cons_append, firstLine_cut ht.2, decoded_of_notMem ht.1] at same
    have longer := congrArg List.length same
    simp at longer

end Rows

section Tables

variable {results : List LocationParseResult}

private theorem handlersInfo_cons (res : LocationParseResult) (others : List LocationParseResult) :
    handlersInfo (res :: others) =
      res.handlerName ++ SP :: (res.uri ++ SP :: handlersInfo others) := by
  have space : lit " " = [SP] := by decide
  simp [handlersInfo, space]

private theorem handlerTable_cons (res : LocationParseResult) (others : List LocationParseResult) :
    handlerTable (res :: others) =
      column res.handlerName ++ (res.uri ++ (crlf ++ handlerTable others)) := by
  have lineEnd : lit "\r\n" = crlf := by decide
  simp [handlerTable, lineEnd]

private theorem handlerTable_ne (words : ∀ res ∈ results, IsWord res.handlerName) (y : Bytes) :
    handlerTable results ≠ SP :: y := by
  cases results with
  | nil => exact (List.cons_ne_nil _ _).symm
  | cons res others =>
      obtain ⟨c, w, name, hc⟩ := head_of_isWord (words res List.mem_cons_self)
      rw [handlerTable_cons, column, name]
      exact fun same => hc (List.cons.inj same).1

private theorem decoded_handlersInfo_iff (words : ∀ res ∈ results, IsWord res.handlerName) :
    decoded 0 (firstLine (handlersInfo results)) = handlerTable results ↔
      ∀ res ∈ results, Unbroken res.handlerName ∧ Unbroken res.uri := by
  induction results with
  | nil => exact iff_of_true rfl (by simp)
  | cons res others ih =>
      have behind : ∀ r ∈ others, IsWord r.handlerName := fun r hr => words r (by simp [hr])
      rw [handlersInfo_cons, handlerTable_cons, List.forall_mem_cons, ← ih behind]
      by_cases hname : Unbroken res.handlerName
      · by_cases huri : Unbroken res.uri
        · rw [decoded_row hname huri, List.append_cancel_left_eq, List.append_cancel_left_eq,
            List.append_cancel_left_eq]
          exact (and_iff_right ⟨hname, huri⟩).symm
        · exact iff_of_false (decoded_ne_of_uri hname huri) (fun h => huri h.1.2)
      · refine iff_of_false ?_ (fun h => hname h.1.1)
        exact decoded_ne_of_name (words res List.mem_cons_self) hname (handlerTable_ne behind)

end Tables

section Logs

def marker : Bytes := lit "all handlers:"

def marked (line : Bytes) : Bool := (find marker line).isSome

def logLines (files : List Bytes) : List Bytes :=
  files.flatMap (fun file => ((Istream.of file).lines LF).map Prod.fst)

private theorem readRecords_eq (allHandlers : Bytes) (files : List Bytes) :
    readRecords allHandlers files =
      (logLines files).foldl Records.readLine ⟨allHandlers, 0, []⟩ := by
  rw [logLines, List.foldl_flatMap]
  rfl

private theorem foldl_readLine_unmarked {ls : List Bytes}
    (unmarked : ∀ l ∈ ls, find marker l = none) (r : Records) :
    (ls.foldl Records.readLine r).allHandlers = r.allHandlers := by
  induction ls generalizing r with
  | nil => rfl
  | cons l ls ih =>
      rw [List.foldl_cons, ih (fun k hk => unmarked k (by simp [hk]))]
      have none : find (lit "all handlers:") l = none := unmarked l List.mem_cons_self
      simp only [Records.readLine, none]

private theorem find_marker_line {stamp : Stamp} (unmarked : ¬ marker <:+: stamp.text) (s : Bytes) :
    find marker (stamp.text ++ (lit "all handlers: " ++ s)) = some stamp.text.length := by
  obtain ⟨a, ha⟩ : ∃ a, stamp.text = a ++ 93 :: [SP] := by
    refine ⟨stamp.timeStamp ++ lit " [" ++ stamp.threadID ++ lit "] [trace] [" ++
      stamp.processID ++ lit "] [" ++ stdToString stamp.lineID, ?_⟩
    rfl
  have absent : ¬ marker <:+: a := by
    rw [ha] at unmarked
    exact fun h => unmarked (h.trans (List.prefix_append a _).isInfix)
  have here : find marker (lit "all handlers: " ++ s) = some 0 :=
    find_append_of_some (by decide)
  have space : find marker ([SP] ++ (lit "all handlers: " ++ s)) = some 1 := by
    have first : marker = 97 :: lit "ll handlers:" := by decide
    rw [first] at here ⊢
    rw [find_append_of_notMem (by decide), here]
    rfl
  rw [ha, List.append_assoc, List.cons_append, find_append_cons (by decide) absent, space,
    Option.map_some, List.length_append]
  congr 1
  simp only [List.length_cons, List.length_nil]
  omega

private theorem logLines_cons {line : Bytes} (hline : LF ∉ line) (rest : Bytes) :
    logLines [line ++ LF :: rest] = line :: logLines [rest] := by
  simp only [logLines, List.flatMap_cons, List.flatMap_nil, List.append_nil, Istream.lines,
    Istream.of_good, Istream.of_buffer, if_true, linesFrom_line hline, List.map_cons]

private theorem logLines_record {w : Bytes} (hw : LF ∉ w) (s : Bytes) :
    ∃ others, logLines [w ++ s ++ [LF]] = (w ++ firstLine s) :: others := by
  by_cases newline : LF ∈ s
  · obtain ⟨t, rest, rfl, ht⟩ := List.eq_append_cons_of_mem newline
    have first := logLines_cons (List.not_mem_append hw ht) (rest ++ [LF])
    rw [firstLine_cut ht]
    exact ⟨_, by simpa using first⟩
  · have whole : firstLine s = s := by
      simpa [firstLine] using @firstLine_append [] s newline
    rw [whole]
    exact ⟨_, logLines_cons (List.not_mem_append hw newline) []⟩

private theorem unmarked_of_once {before behind : List Bytes} {line : Bytes}
    (once : (before ++ line :: behind).countP marked = 1)
    (found : marked line = true) : ∀ l ∈ behind, find marker l = none := by
  have rest : behind.countP marked = 0 := by
    rw [List.countP_append, List.countP_cons_of_pos found] at once
    omega
  intro l hl
  have unmarked := List.countP_eq_zero.mp rest l hl
  rwa [marked, Bool.not_eq_true, Option.isSome_eq_false_iff, Option.isNone_iff_eq_none] at unmarked

/-- A log in which one line contains the marker, that of this message. -/
structure LoggedOnce (stamp : Stamp) (message : Bytes) (files : List Bytes) : Prop where
  unmarked : ¬ marker <:+: stamp.text
  written : ∃ before after,
    logLines files = before ++ logLines [stamp.text ++ message ++ [LF]] ++ after
  once : (logLines files).countP marked = 1

private theorem LoggedOnce.allHandlers_eq {stamp : Stamp} {s : Bytes} {files : List Bytes}
    (h : LoggedOnce stamp (lit "all handlers: " ++ s) files) (earlier : Bytes) :
    (readRecords earlier files).allHandlers = decoded 0 (firstLine s) := by
  obtain ⟨before, after, written⟩ := h.written
  have plain : LF ∉ stamp.text ++ lit "all handlers: " :=
    List.not_mem_append (notMem_stamp stamp (.inr rfl)) (by decide)
  obtain ⟨others, record⟩ := logLines_record plain s
  rw [← List.append_assoc, record, List.append_assoc] at written
  have found : find marker (stamp.text ++ lit "all handlers: " ++ firstLine s) =
      some stamp.text.length := by
    rw [List.append_assoc]
    exact find_marker_line h.unmarked (firstLine s)
  have silent : ∀ l ∈ others ++ after, find marker l = none := by
    have once := h.once
    rw [written] at once
    exact unmarked_of_once once (by rw [marked, found]; rfl)
  have line : scanHandlers (stamp.text ++ lit "all handlers: " ++ firstLine s) stamp.text.length =
      decoded 0 (firstLine s) := by
    have length : (stamp.text ++ lit "all handlers: ").length = stamp.text.length + 14 := by
      rw [List.length_append]
      rfl
    rw [scanHandlers, ← length, List.drop_left]
    rfl
  rw [readRecords_eq, written, List.foldl_append, List.cons_append, List.foldl_cons,
    foldl_readLine_unmarked silent]
  have found : find (lit "all handlers:") (stamp.text ++ lit "all handlers: " ++ firstLine s) =
      some stamp.text.length := found
  simp only [Records.readLine, found, line]

private theorem loggedOnce_single {stamp : Stamp} {s : Bytes} (unmarked : ¬ marker <:+: stamp.text)
    (hs : LF ∉ s) :
    LoggedOnce stamp (lit "all handlers: " ++ s)
      [stamp.text ++ (lit "all handlers: " ++ s) ++ [LF]] where
  unmarked := unmarked
  written := ⟨[], [], by simp⟩
  once := by
    have plain : LF ∉ stamp.text ++ (lit "all handlers: " ++ s) :=
      List.not_mem_append (notMem_stamp stamp (.inr rfl)) (List.not_mem_append (by decide) hs)
    have found : marked (stamp.text ++ (lit "all handlers: " ++ s)) = true := by
      rw [marked, find_marker_line unmarked s]
      rfl
    rw [logLines_cons plain [], List.countP_cons_of_pos found]
    rfl

end Logs

private theorem isWord_handlerName {text : Bytes} {config : NginxConfig}
    {results : List LocationParseResult} (accepted : parse text = some (.ok (some config)))
    (located : config.getLocationResult = .ok results) :
    ∀ res ∈ results, IsWord res.handlerName := by
  obtain ⟨found, hfound, hmem⟩ := (worded_of_parse accepted).locations
  obtain rfl : found = results := Except.ok.inj (hfound.symm.trans located)
  intro res hres
  obtain ⟨path, name, child, hin, rfl⟩ := (hmem res).mp hres
  have derives := (parse_accepts_iff.mp accepted).2
  exact isWord_of_lexes (lexes_tokens text) name
    (derives.word_mem hin (by simp [NginxConfigStatement.tokens]))

/-- The table survives the log exactly if no name and no URI has a space or a line end. -/
theorem handlerTable_read_iff {text message : Bytes} {config : NginxConfig}
    {results : List LocationParseResult} {stamp : Stamp} {files : List Bytes}
    (accepted : parse text = some (.ok (some config)))
    (located : config.getLocationResult = .ok results) (sent : logAllHandlers config = .ok message)
    (logged : LoggedOnce stamp message files) (earlier : Bytes) :
    (readRecords earlier files).allHandlers = handlerTable results ↔
      ∀ res ∈ results, Unbroken res.handlerName ∧ Unbroken res.uri := by
  rw [logAllHandlers, located] at sent
  cases sent
  rw [logged.allHandlers_eq earlier, decoded_handlersInfo_iff (isWord_handlerName accepted located)]

/-- The configuration `location path EchoHandler {}`. -/
def echoLocation (path : Bytes) : NginxConfig :=
  ⟨[.mk [lit "location", path, lit "EchoHandler"] (some [])]⟩

private theorem unmarked_exampleStamp : ¬ marker <:+: exampleStamp.text := by
  intro h
  have letter : 104 ∈ exampleStamp.text := h.subset (by decide)
  exact absurd letter (by decide)

def exampleLog (message : Bytes) : Bytes := exampleStamp.text ++ message ++ [LF]

private theorem loggedOnce_exampleLog {s : Bytes} (hs : LF ∉ s) :
    LoggedOnce exampleStamp (lit "all handlers: " ++ s) [exampleLog (lit "all handlers: " ++ s)] :=
  loggedOnce_single unmarked_exampleStamp hs

theorem handlerTable_read_echo :
    parse (lit "location \"/echo/\" EchoHandler \x7b\x7d") =
        some (.ok (some (echoLocation (lit "\"/echo/\"")))) ∧
      (readRecords [] [exampleLog (lit "all handlers: EchoHandler /echo/ ")]).allHandlers =
        handlerTable [⟨lit "/echo/", lit "EchoHandler", some ⟨[]⟩⟩] := by
  have accepted : parse (lit "location \"/echo/\" EchoHandler \x7b\x7d") =
      some (.ok (some (echoLocation (lit "\"/echo/\"")))) := rfl
  have logged := @loggedOnce_exampleLog (lit "EchoHandler /echo/ ") (by decide)
  refine ⟨accepted, (handlerTable_read_iff accepted rfl rfl logged []).mpr ?_⟩
  intro res hres
  obtain rfl := List.mem_singleton.mp hres
  exact ⟨⟨by decide, by decide⟩, ⟨by decide, by decide⟩⟩

/-- The second half of a URI with a space is taken for a name. -/
theorem uri_with_space_split :
    parse (lit "location \"/a b/\" EchoHandler \x7b\x7d") =
        some (.ok (some (echoLocation (lit "\"/a b/\"")))) ∧
      (echoLocation (lit "\"/a b/\"")).getLocationResult =
        .ok [⟨lit "/a b/", lit "EchoHandler", some ⟨[]⟩⟩] ∧
      logAllHandlers (echoLocation (lit "\"/a b/\"")) =
        .ok (lit "all handlers: EchoHandler /a b/ ") ∧
      LoggedOnce exampleStamp (lit "all handlers: EchoHandler /a b/ ")
        [exampleLog (lit "all handlers: EchoHandler /a b/ ")] ∧
      (readRecords [] [exampleLog (lit "all handlers: EchoHandler /a b/ ")]).allHandlers =
        column (lit "EchoHandler") ++ lit "/a\r\n" ++ column (lit "b/") ∧
      (readRecords [] [exampleLog (lit "all handlers: EchoHandler /a b/ ")]).allHandlers ≠
        handlerTable [⟨lit "/a b/", lit "EchoHandler", some ⟨[]⟩⟩] := by
  have logged := @loggedOnce_exampleLog (lit "EchoHandler /a b/ ") (by decide)
  have read : (readRecords [] [exampleLog (lit "all handlers: EchoHandler /a b/ ")]).allHandlers =
      column (lit "EchoHandler") ++ lit "/a\r\n" ++ column (lit "b/") :=
    logged.allHandlers_eq []
  refine ⟨rfl, rfl, rfl, logged, read, ?_⟩
  rw [read]
  decide

end Wnza.Server.HandlerTable
