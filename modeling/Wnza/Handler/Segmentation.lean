/- GID: Wnza/Handler/Segmentation
   generality: I
   source: src/reverse_proxy_request_handler.cc (send_request)
   digest: The location of a redirection, by how much of the reply the first read has buffered. -/

import Wnza.Handler.ProxyReading

set_option autoImplicit false
set_option relaxedAutoImplicit false

namespace Wnza.Handler.Segmentation

open Wnza.Foundation.InputStream
open Wnza.Foundation.Substring
open Wnza.Http.Text
open Wnza.Handler.Basic
open Wnza.Handler.ProxyReading

/-- The header `Location: v`. -/
def locationHeader (v : Bytes) : Bytes × Bytes := (lit "Location", SP :: v)

def buffered (segments : List Bytes) : Bytes := (readUntil crlf [] segments).1

def upTo (r : HttpReply) (before : List (Bytes × Bytes)) : Bytes :=
  r.statusLine ++ (crlf ++ headerBlock before)

/-- The location header is buffered up to its line end.  Or it is cut behind its name, with its
colon or without, and the value is what is then taken for it. -/
def LocationBuffered (r : HttpReply) (before : List (Bytes × Bytes)) (v : Bytes)
    (segments : List Bytes) : Prop :=
  upTo r before ++ (HttpReply.headerLine (locationHeader v) ++ [CR]) <+: buffered segments ∨
    (v = lit "ocation" ∧ buffered segments = upTo r before ++ lit "Location:") ∨
    (v = lit "ocatio" ∧ buffered segments = upTo r before ++ lit "Location")

section Lines

variable {h : Bytes × Bytes}

private theorem findRedirect_last {t : Bytes} (plain : LF ∉ t) (other : ¬ lit "Location" <:+: t) :
    findRedirect (Istream.linesFrom LF [] t) = .ok none := by
  have absent : ¬ find (lit "Location") t ≠ none := by
    rw [ne_eq, find_eq_none_iff, not_not]
    exact other
  rw [linesFrom_last plain]
  split_ifs with hempty
  · rfl
  · rw [findRedirect, if_neg absent, findRedirect, ite_self]

private theorem findRedirect_cut {t : Bytes} (ht : t <+: HttpReply.headerLine h ++ [CR])
    (lf : LF ∉ HttpReply.headerLine h) (other : ¬ NamesLocation h) :
    findRedirect (Istream.linesFrom LF [] t) = .ok none := by
  apply findRedirect_last
  · intro hmem
    rcases List.mem_append.mp (ht.subset hmem) with hmem | hmem
    · exact lf hmem
    · exact absurd hmem (by decide)
  · intro inside
    apply other
    apply (find_location_iff _).mp
    rw [ne_eq, find_eq_none_iff, not_not]
    exact inside.trans ht.isInfix

private theorem findRedirect_before {before : List (Bytes × Bytes)}
    (plain : ∀ h ∈ before, PlainHeader h) (other : ∀ h ∈ before, ¬ NamesLocation h)
    {t q rest : Bytes} (cut : t ++ q = headerBlock before ++ rest) :
    (findRedirect (Istream.linesFrom LF [] t) = .ok none ∧ ∃ x ≠ [], headerBlock before = t ++ x) ∨
      ∃ p, t = headerBlock before ++ p ∧ p ++ q = rest ∧
        findRedirect (Istream.linesFrom LF [] t) = findRedirect (Istream.linesFrom LF [] p) := by
  induction before generalizing t with
  | nil => exact .inr ⟨t, rfl, cut, rfl⟩
  | cons h before ih =>
      have hplain := plain h (by simp)
      have block : headerBlock (h :: before) =
          HttpReply.headerLine h ++ (crlf ++ headerBlock before) := by
        simpa using headerBlock_cons h before []
      have line : HttpReply.headerLine h ++ [CR] <+: t ++ q := by
        rw [cut, block]
        exact ⟨LF :: (headerBlock before ++ rest), by simp⟩
      rcases Nat.lt_or_ge (HttpReply.headerLine h ++ [CR]).length t.length with hlt | hge
      · -- the line is complete
        have whole : HttpReply.headerLine h ++ crlf <+: t ++ q := by
          rw [cut, block]
          exact ⟨headerBlock before ++ rest, by simp⟩
        obtain ⟨t', rfl⟩ := List.prefix_of_prefix_length_le whole (List.prefix_append t q)
          (by simp at hlt ⊢; omega)
        have rest' : t' ++ q = headerBlock before ++ rest := by
          simpa [block] using cut
        have skip : findRedirect (Istream.linesFrom LF [] (HttpReply.headerLine h ++ crlf ++ t')) =
            findRedirect (Istream.linesFrom LF [] t') := by
          rw [List.append_assoc, findRedirect_cons hplain, if_neg (other h (by simp))]
        obtain ⟨none, x, hx, hbefore⟩ | ⟨p, rfl, hp, same⟩ :=
          ih (fun k hk => plain k (by simp [hk])) (fun k hk => other k (by simp [hk])) rest'
        · exact .inl ⟨skip.trans none, x, hx, by simp [block, hbefore]⟩
        · exact .inr ⟨p, by simp [block], hp, skip.trans same⟩
      · have short := List.prefix_of_prefix_length_le (List.prefix_append t q) line hge
        refine .inl ⟨findRedirect_cut short hplain.lf (other h (by simp)), ?_⟩
        obtain ⟨x, hx⟩ := short
        refine ⟨x ++ LF :: headerBlock before, by simp, ?_⟩
        calc headerBlock (h :: before) =
            (HttpReply.headerLine h ++ [CR]) ++ LF :: headerBlock before := by simp [block]
          _ = (t ++ x) ++ LF :: headerBlock before := by rw [hx]
          _ = t ++ (x ++ LF :: headerBlock before) := List.append_assoc _ _ _

private theorem findRedirect_location {v p q rest : Bytes} (plain : PlainHeader (locationHeader v))
    (line : HttpReply.headerLine (locationHeader v) ++ [CR] <+: p)
    (cut : p ++ q = HttpReply.headerLine (locationHeader v) ++ (crlf ++ rest)) :
    findRedirect (Istream.linesFrom LF [] p) = .ok (some v) := by
  have names : NamesLocation (locationHeader v) := ⟨[], COLON :: SP :: v, rfl⟩
  have value : (locationHeader v).2 ≠ [] := by simp [locationHeader]
  obtain ⟨t, rfl⟩ := line
  cases t with
  | nil =>
      obtain ⟨hblank, hempty⟩ := headerLine_ne (locationHeader v)
      have lf : LF ∉ HttpReply.headerLine (locationHeader v) ++ [CR] := by
        intro hmem
        rcases List.mem_append.mp hmem with hmem | hmem
        · exact plain.lf hmem
        · exact absurd hmem (by decide)
      rw [List.append_nil, linesFrom_last lf, if_neg hempty, findRedirect, if_neg hblank,
        if_pos ((find_location_iff _).mpr names), redirectLocation, if_neg hempty,
        List.dropLast_concat, substrFrom_headerLine plain.colon, if_neg value]
      rfl
  | cons c t =>
      obtain rfl : c = LF := by
        simp only [List.append_assoc, List.append_cancel_left_eq, List.cons_append,
          List.nil_append, List.cons.injEq, true_and] at cut
        exact cut.1
      have whole : HttpReply.headerLine (locationHeader v) ++ [CR] ++ LF :: t =
          HttpReply.headerLine (locationHeader v) ++ (crlf ++ t) := by simp
      rw [whole, findRedirect_cons plain, if_pos names, if_neg value]
      rfl

private theorem redirectLocation_cut (e : UInt8) (q : Bytes) :
    redirectLocation (lit "Location" ++ COLON :: SP :: e :: q) = .ok (e :: q).dropLast := by
  have cut : (lit "Location" ++ COLON :: SP :: e :: q).dropLast =
      HttpReply.headerLine (locationHeader (e :: q).dropLast) := by
    rw [List.dropLast_append_of_ne_nil (by simp)]
    rfl
  have colon : COLON ∉ lit "Location" := by decide
  rw [redirectLocation, if_neg (by simp), cut, substrFrom_headerLine colon]
  rfl

private theorem redirectLocation_iff {q v : Bytes} (hq : q <+: COLON :: SP :: v) :
    redirectLocation (lit "Location" ++ q) = .ok v ↔
      (v = lit "ocation" ∧ q = [COLON]) ∨ (v = lit "ocatio" ∧ q = []) := by
  rcases q with - | ⟨c, - | ⟨d, - | ⟨e, q⟩⟩⟩
  · -- the word alone
    have location : redirectLocation (lit "Location" ++ []) = .ok (lit "ocatio") := by decide
    rw [location]
    simp [eq_comm]
  · -- the word and its colon
    obtain rfl : c = COLON := (List.cons_prefix_cons.mp hq).1
    have location : redirectLocation (lit "Location" ++ [COLON]) = .ok (lit "ocation") := by
      decide
    rw [location]
    simp [eq_comm]
  · -- no byte of the value
    obtain ⟨hc, behind⟩ := List.cons_prefix_cons.mp hq
    obtain rfl : d = SP := (List.cons_prefix_cons.mp behind).1
    subst hc
    have location : redirectLocation (lit "Location" ++ [COLON, SP]) = .error .outOfRange := by
      decide
    rw [location]
    simp
  · obtain ⟨hc, behind⟩ := List.cons_prefix_cons.mp hq
    obtain ⟨hd, value⟩ := List.cons_prefix_cons.mp behind
    subst hc hd
    rw [redirectLocation_cut]
    refine iff_of_false ?_ (by simp)
    intro same
    have shorter := congrArg List.length (Except.ok.inj same)
    have := value.length_le
    simp only [List.length_dropLast, List.length_cons] at shorter this
    omega

private theorem findRedirect_location_cut {p v : Bytes} (hv : LF ∉ v)
    (hp : p <+: HttpReply.headerLine (locationHeader v)) :
    findRedirect (Istream.linesFrom LF [] p) = .ok (some v) ↔
      (v = lit "ocation" ∧ p = lit "Location:") ∨ (v = lit "ocatio" ∧ p = lit "Location") := by
  have line : HttpReply.headerLine (locationHeader v) = lit "Location" ++ COLON :: SP :: v := rfl
  have plain : LF ∉ p := by
    intro hmem
    have := hp.subset hmem
    rw [line] at this
    simp only [List.mem_append, List.mem_cons] at this
    rcases this with h | h | h | h
    · exact absurd h (by decide)
    · cases h
    · cases h
    · exact hv h
  rcases Nat.lt_or_ge p.length (lit "Location").length with hlt | hge
  · -- the word is not complete
    have absent : ¬ lit "Location" <:+: p := fun inside =>
      absurd inside.length_le (Nat.not_le.mpr hlt)
    rw [findRedirect_last plain absent]
    refine iff_of_false (by simp) ?_
    rintro (⟨-, rfl⟩ | ⟨-, rfl⟩)
    · exact absurd hlt (by decide)
    · exact absurd hlt (by decide)
  · rw [line] at hp
    obtain ⟨q, rfl⟩ := List.prefix_of_prefix_length_le (List.prefix_append _ _) hp hge
    rw [List.prefix_append_right_inj] at hp
    have found : find (lit "Location") (lit "Location" ++ q) ≠ none := by
      rw [ne_eq, find_eq_none_iff, not_not]
      exact (List.prefix_append _ _).isInfix
    have read : findRedirect (Istream.linesFrom LF [] (lit "Location" ++ q)) =
        (redirectLocation (lit "Location" ++ q)).map some := by
      rw [linesFrom_last plain, if_neg (by simp [lit]), findRedirect, if_neg (by simp [lit]),
        if_pos found]
    have some_iff : (redirectLocation (lit "Location" ++ q)).map some = .ok (some v) ↔
        redirectLocation (lit "Location" ++ q) = .ok v := by
      cases redirectLocation (lit "Location" ++ q) with
      | error e => simp [Except.map]
      | ok location => simp [Except.map]
    have colon : lit "Location:" = lit "Location" ++ [COLON] := by decide
    rw [read, some_iff, redirectLocation_iff hp, colon, List.append_cancel_left_eq]
    simp only [List.append_right_eq_self]

end Lines

section Replies

variable {r : HttpReply} {before after : List (Bytes × Bytes)} {v : Bytes} {segments : List Bytes}

private theorem redirect_iff (w : World) (prefixUri : Bytes)
    (hstatus : r.status = 301 ∨ r.status = 302)
    (hheaders : r.headers = before ++ locationHeader v :: after)
    (only : ∀ h ∈ before ++ after, ¬ NamesLocation h) (delivered : segments.flatten = r.text) :
    readResponse w prefixUri segments = .ok (.redirect v) ↔
      LocationBuffered r before v segments := by
  obtain ⟨t, left, hbuffered, hread⟩ := @readResponse_eq w prefixUri segments r delivered
  have found : readResponse w prefixUri segments = .ok (.redirect v) ↔
      findRedirect (Istream.linesFrom LF [] t) = .ok (some v) := by
    rw [hread, if_pos hstatus.symm]
    match findRedirect (Istream.linesFrom LF [] t) with
    | .error e => simp
    | .ok none => simp
    | .ok (some location) => simp
  have member : locationHeader v ∈ r.headers := by simp [hheaders]
  have plain : ∀ h ∈ before, PlainHeader h := fun h hh => r.plainHeader (by simp [hheaders, hh])
  have tail : r.tail = headerBlock before ++ (HttpReply.headerLine (locationHeader v) ++
      (crlf ++ (headerBlock after ++ (crlf ++ r.body)))) := by
    simp [HttpReply.tail, hheaders, headerBlock]
  rw [tail] at left
  have start : buffered segments = r.statusLine ++ (crlf ++ t) := hbuffered
  have buffered_iff : LocationBuffered r before v segments ↔
      headerBlock before ++ (HttpReply.headerLine (locationHeader v) ++ [CR]) <+: t ∨
        (v = lit "ocation" ∧ t = headerBlock before ++ lit "Location:") ∨
        (v = lit "ocatio" ∧ t = headerBlock before ++ lit "Location") := by
    rw [LocationBuffered, start, upTo]
    simp only [List.append_assoc, List.prefix_append_right_inj, List.append_cancel_left_eq]
  rw [found, buffered_iff]
  obtain ⟨none, x, hx, short⟩ | ⟨p, rfl, cut, same⟩ :=
    findRedirect_before plain (fun h hh => only h (by simp [hh])) left
  · -- the buffer ends before the location header
    rw [none]
    have longer := congrArg List.length short
    have positive := List.length_pos_iff.mpr hx
    rw [List.length_append] at longer
    refine iff_of_false (by simp) ?_
    rintro (⟨y, rfl⟩ | ⟨-, rfl⟩ | ⟨-, rfl⟩)
    · simp only [List.length_append] at longer
      omega
    · simp only [List.length_append] at longer
      omega
    · simp only [List.length_append] at longer
      omega
  · rw [same]
    simp only [List.prefix_append_right_inj, List.append_cancel_left_eq]
    have hplain := r.plainHeader member
    rcases Nat.lt_or_ge (HttpReply.headerLine (locationHeader v)).length p.length with hlt | hge
    · have whole : HttpReply.headerLine (locationHeader v) ++ [CR] <+:
          p ++ (readUntil crlf [] segments).2.flatten := by
        rw [cut]
        exact ⟨LF :: (headerBlock after ++ (crlf ++ r.body)), by simp⟩
      have line : HttpReply.headerLine (locationHeader v) ++ [CR] <+: p := by
        refine List.prefix_of_prefix_length_le whole (List.prefix_append p _) ?_
        rw [List.length_append, List.length_singleton]
        omega
      exact iff_of_true (findRedirect_location hplain line cut) (.inl line)
    · have whole : HttpReply.headerLine (locationHeader v) <+:
          p ++ (readUntil crlf [] segments).2.flatten := by
        rw [cut]
        exact List.prefix_append _ _
      have short : p <+: HttpReply.headerLine (locationHeader v) :=
        List.prefix_of_prefix_length_le (List.prefix_append p _) whole hge
      have value : LF ∉ v :=
        fun hmem => hplain.lf (by simp [HttpReply.headerLine, locationHeader, hmem])
      have unended : ¬ HttpReply.headerLine (locationHeader v) ++ [CR] <+: p := by
        intro line
        have := line.length_le
        rw [List.length_append, List.length_singleton] at this
        omega
      rw [findRedirect_location_cut value short]
      simp [unended]

end Replies

/-- Two cuttings of a redirection lead to its value both exactly if both buffer its location
header with the status line. -/
theorem redirect_independent_iff (w : World) (prefixUri : Bytes) (r : HttpReply)
    (before after : List (Bytes × Bytes)) (v : Bytes) (hstatus : r.status = 301 ∨ r.status = 302)
    (hheaders : r.headers = before ++ locationHeader v :: after) (_hv : v ≠ [])
    (only : ∀ h ∈ before ++ after, ¬ NamesLocation h) (segments₁ segments₂ : List Bytes)
    (delivered₁ : segments₁.flatten = r.text) (delivered₂ : segments₂.flatten = r.text) :
    (readResponse w prefixUri segments₁ = .ok (.redirect v) ∧
        readResponse w prefixUri segments₂ = .ok (.redirect v)) ↔
      LocationBuffered r before v segments₁ ∧ LocationBuffered r before v segments₂ := by
  have first := redirect_iff w prefixUri hstatus hheaders only delivered₁
  have second := redirect_iff w prefixUri hstatus hheaders only delivered₂
  rw [first, second]

/-- A redirection with one header. -/
def found : HttpReply where
  version := lit "HTTP/1.1"
  code := lit "302"
  reason := lit "Found"
  headers := [locationHeader (lit "b/")]
  body := []
  version_http := http11_version
  version_plain := http11_plain
  code_digits := code302_digits
  reason_plain := found_plain
  headers_named :=
    List.forall_mem_singleton.mpr location_named
  headers_plain := List.forall_mem_singleton.mpr (forall_mem_of_all (by decide))

/-- Delivered at once, and cut before the final line end. -/
theorem redirect_independent_found :
    readResponse ⟨fun _ => none, []⟩ (lit "/p/") [found.text] = .ok (.redirect (lit "b/")) ∧
      readResponse ⟨fun _ => none, []⟩ (lit "/p/")
        [lit "HTTP/1.1 302 Found\r\nLocation: b/\r", lit "\n\r\n"] =
          .ok (.redirect (lit "b/")) := by
  refine (redirect_independent_iff _ _ found [] [] (lit "b/") (.inr rfl) rfl (by decide)
    (by simp) _ _ (by decide) (by decide)).mpr ⟨.inl (by decide), .inl (by decide)⟩

/-- A segment that ends inside the value cuts the location short. -/
theorem redirect_cut_short :
    readResponse ⟨fun _ => none, []⟩ (lit "/p/") [found.text] = .ok (.redirect (lit "b/")) ∧
      [lit "HTTP/1.1 302 Found\r\nLocation: b/", lit "\r\n\r\n"].flatten = found.text ∧
      readResponse ⟨fun _ => none, []⟩ (lit "/p/")
        [lit "HTTP/1.1 302 Found\r\nLocation: b/", lit "\r\n\r\n"] =
          .ok (.redirect (lit "b")) := by
  refine ⟨rfl, by decide, rfl⟩

end Wnza.Handler.Segmentation
