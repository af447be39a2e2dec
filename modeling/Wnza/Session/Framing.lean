/- GID: Wnza/Session/Framing
   generality: I
   source: src/session.cc, tests/multithreading_test.py
   digest: A stream of requests cut into reads, and the requests that each read passes on. -/

import Wnza.Session.Receive

set_option autoImplicit false
set_option relaxedAutoImplicit false

namespace Wnza.Session.Framing

open Wnza.Foundation.Feed
open Wnza.Foundation.DoWhile
open Wnza.Http.Text
open Wnza.Http.Parser
open Wnza.Http.Grammar
open Wnza.Http.Counter
open Wnza.Session.Receive

/-- The bytes of successive requests. -/
def wire (ms : List Message) : Bytes := ms.flatMap Message.encode

/-- At most one header line of the request is named `Content-Length`. -/
def SingleLength (m : Message) : Prop :=
  (m.headers.filter (fun h => h.1 = contentLength)).length ≤ 1

def delivered (m : Message) : Delivery := ⟨.good, m.request⟩

/-- The requests whose last byte lies behind position `start` and not behind `stop`, of
requests that begin at position `pos`. -/
def endingIn (start stop : Nat) : Nat → List Message → List Message
  | _, [] => []
  | pos, m :: ms =>
      let last := pos + m.encode.length
      if start < last ∧ last ≤ stop then m :: endingIn start stop last ms
      else endingIn start stop last ms

/-- For each read from position `start` on, the requests that end in it. -/
def schedule (pos : Nat) (ms : List Message) : Nat → List Bytes → List (List Message)
  | _, [] => []
  | start, data :: reads =>
      endingIn start (start + data.length) pos ms ::
        schedule pos ms (start + data.length) reads

/-- The session passes on each request in the read that holds its last byte, and is left as
it was before the first read. -/
def Framed (ms : List Message) (reads : List Bytes) : Prop :=
  Runs .fresh reads ((schedule 0 ms 0 reads).map (List.map delivered)) .fresh

theorem encode_length_pos (m : Message) : 0 < m.encode.length :=
  List.length_pos_iff.mpr (by simp [Message.encode])

theorem endingIn_of_le {start stop pos : Nat} {ms : List Message} (h : stop ≤ pos) :
    endingIn start stop pos ms = [] := by
  induction ms generalizing pos with
  | nil => rfl
  | cons m ms ih =>
      have longer := encode_length_pos m
      rw [endingIn, if_neg (by omega)]
      exact ih (by omega)

private theorem schedule_cons_of_le {pos start : Nat} {m : Message} {ms : List Message}
    {reads : List Bytes} (h : pos + m.encode.length ≤ start) :
    schedule pos (m :: ms) start reads = schedule (pos + m.encode.length) ms start reads := by
  induction reads generalizing start with
  | nil => rfl
  | cons data reads ih =>
      have ended : ¬ (start < pos + m.encode.length ∧
          pos + m.encode.length ≤ start + data.length) := by omega
      simp only [schedule, endingIn, if_neg ended]
      rw [ih (by omega)]

private theorem endingIn_append {start mid stop pos : Nat} {ms : List Message} (h₁ : start ≤ mid)
    (h₂ : mid ≤ stop) :
    endingIn start mid pos ms ++ endingIn mid stop pos ms = endingIn start stop pos ms := by
  induction ms generalizing pos with
  | nil => rfl
  | cons m ms ih =>
      have rest := @ih (pos + m.encode.length)
      simp only [endingIn]
      by_cases early : pos + m.encode.length ≤ mid
      · rw [if_neg (show ¬ (mid < pos + m.encode.length ∧ _) by omega)]
        by_cases before : start < pos + m.encode.length
        · rw [if_pos ⟨before, early⟩, if_pos ⟨before, by omega⟩, List.cons_append, rest]
        · rw [if_neg (by omega), if_neg (by omega), rest]
      · rw [if_neg (show ¬ (start < pos + m.encode.length ∧ pos + m.encode.length ≤ mid) by omega)]
        have none : endingIn start mid (pos + m.encode.length) ms = [] :=
          endingIn_of_le (by omega)
        rw [none, List.nil_append] at rest ⊢
        by_cases late : pos + m.encode.length ≤ stop
        · rw [if_pos ⟨by omega, late⟩, if_pos ⟨by omega, late⟩, rest]
        · rw [if_neg (by omega), if_neg (by omega), rest]

private theorem endingIn_all {start stop pos : Nat} {ms : List Message} (begun : start ≤ pos)
    (all : pos + (wire ms).length ≤ stop) : endingIn start stop pos ms = ms := by
  induction ms generalizing pos with
  | nil => rfl
  | cons m ms ih =>
      have longer := encode_length_pos m
      simp only [wire, List.flatMap_cons, List.length_append] at all
      rw [endingIn, if_pos (by omega)]
      rw [ih (by omega) (by simp only [wire]; omega)]

theorem flatten_schedule_eq {pos start : Nat} {ms : List Message} {reads : List Bytes} :
    (schedule pos ms start reads).flatten =
      endingIn start (start + reads.flatten.length) pos ms := by
  induction reads generalizing start with
  | nil =>
      have none : endingIn start start pos ms = [] := by
        induction ms generalizing pos with
        | nil => rfl
        | cons m ms ih => rw [endingIn, if_neg (by omega), ih]
      simpa [schedule] using none.symm
  | cons data reads ih =>
      simp only [schedule, List.flatten_cons, ih, List.length_append, ← Nat.add_assoc]
      exact endingIn_append (by omega) (by omega)

private theorem flatten_schedule {ms : List Message} {reads : List Bytes}
    (cut : reads.flatten = wire ms) : (schedule 0 ms 0 reads).flatten = ms := by
  rw [flatten_schedule_eq, cut]
  exact endingIn_all (le_refl 0) (by omega)

private theorem feed_prefix {m : Message} {w : Bytes} (nonneg : NonnegLengths m.headers)
    (pre : w <+: m.encode) (short : w.length < m.encode.length) :
    ∃ s, feed machine .fresh w = .more s ∧ 0 ≤ s.parser.bodyLength := by
  obtain ⟨as, b, s', hsplit, hs', -⟩ := feed_done_iff.mp (feed_encode m)
  have shorter : w <+: as := by
    refine List.prefix_of_prefix_length_le pre ⟨[b], hsplit.symm⟩ ?_
    rw [hsplit] at short
    simpa [Nat.lt_succ_iff] using short
  obtain ⟨bs, rfl⟩ := shorter
  obtain ⟨s, hs, -⟩ := feed_more_append_iff.mp hs'
  exact ⟨s, hs, nonnegThroughout_encode m nonneg w s pre hs⟩

private theorem nonnegLengths_of_single {m : Message} (h : SingleLength m) :
    NonnegLengths m.headers := by
  intro k hk hc n hn
  have one : m.headers.filter (fun h => h.1 = contentLength) = [k] := by
    have hmem : k ∈ m.headers.filter (fun h => h.1 = contentLength) :=
      List.mem_filter.mpr ⟨hk, by simpa using hc⟩
    obtain ⟨a, rest, hcons⟩ := List.exists_cons_of_ne_nil (List.ne_nil_of_mem hmem)
    unfold SingleLength at h
    rw [hcons, List.length_cons] at h
    obtain rfl : rest = [] := List.length_eq_zero_iff.mp (by omega)
    rw [hcons] at hmem
    rw [hcons, List.mem_singleton.mp hmem]
  have declared := m.body_declared
  rw [declaredLength, lastLength, one] at declared
  simp only [List.getLast?_singleton, Option.map_some, hn] at declared
  rw [Except.ok.inj declared]
  exact Int.natCast_nonneg _

private theorem feed_stream_prefix {ms : List Message} {w rest : Bytes}
    (single : ∀ m ∈ ms, SingleLength m) (cut : w ++ rest = wire ms)
    (short : ∀ m ∈ ms.head?, w.length < m.encode.length) :
    ∃ s, feed machine .fresh w = .more s ∧ 0 ≤ s.parser.bodyLength := by
  cases ms with
  | nil =>
      obtain ⟨rfl, -⟩ := List.append_eq_nil_iff.mp cut
      exact ⟨.fresh, rfl, le_refl 0⟩
  | cons m ms =>
      have hlt : w.length < m.encode.length := short m rfl
      have pre : w <+: m.encode :=
        List.prefix_of_prefix_length_le ⟨rest, cut⟩ ⟨wire ms, rfl⟩ (by omega)
      exact feed_prefix (nonnegLengths_of_single (single m (by simp))) pre hlt

private theorem received_of_end {m : Message} {w data r : Bytes} {s u : Parsing}
    (state : feed machine .fresh w = .more s) (split : w ++ data = m.encode ++ r)
    (behind : feed machine .fresh r = .more u) (nonneg : 0 ≤ u.parser.bodyLength) :
    Received s data [delivered m] u := by
  have run : feed machine s data = .done .good m.final r := by
    rw [← feed_append_of_more state, split, feed_append, feed_encode, Outcome.resume,
      List.nil_append]
  have zero : m.final.parser.bodyLength = 0 := rfl
  refine ends_of_exit ?_
  rw [receivePass_of_done run (by rw [zero]) (by rw [zero]; exact Int.natCast_nonneg _), zero,
    Int.toNat_zero, List.drop_zero, behind]
  simp only [settle, if_neg (not_lt.mpr nonneg)]
  rfl

/-- A session between two reads: the requests `ms` of the stream, which begin at position
`pos`, have not ended, and the bytes `w` of the first one have been read. -/
structure Midway (ms : List Message) (reads : List Bytes) (pos start : Nat) (w : Bytes)
    (s : Parsing) : Prop where
  cut : w ++ reads.flatten = wire ms
  read : pos + w.length = start
  short : ∀ m ∈ ms.head?, w.length < m.encode.length
  state : feed machine .fresh w = .more s

namespace Midway

variable {m : Message} {ms : List Message} {data : Bytes} {reads : List Bytes} {pos start : Nat}
  {w : Bytes} {s : Parsing}

private theorem fresh_of_nil (h : Midway ms [] pos start w s) : ms = [] ∧ s = .fresh := by
  obtain rfl : ms = [] := by
    cases ms with
    | nil => rfl
    | cons m ms =>
        have hlt : w.length < m.encode.length := h.short m rfl
        have total := congrArg List.length h.cut
        simp only [wire, List.flatten_nil, List.append_nil, List.flatMap_cons,
          List.length_append] at total
        omega
  obtain ⟨rfl, -⟩ := List.append_eq_nil_iff.mp h.cut
  have state := h.state
  injection state with state
  exact ⟨rfl, state.symm⟩

private theorem ne_nil (h : Midway ms (data :: reads) pos start w s) (hdata : data ≠ []) :
    ms ≠ [] := by
  rintro rfl
  have cut := h.cut
  rw [List.flatten_cons] at cut
  obtain ⟨-, rest⟩ := List.append_eq_nil_iff.mp cut
  exact hdata (List.append_eq_nil_iff.mp rest).1

private theorem read_on (h : Midway (m :: ms) (data :: reads) pos start w s)
    (single : ∀ k ∈ m :: ms, SingleLength k) (hlt : (w ++ data).length < m.encode.length) :
    endingIn start (start + data.length) pos (m :: ms) = [] ∧
      ∃ t, Received s data [] t ∧
        Midway (m :: ms) reads pos (start + data.length) (w ++ data) t := by
  have read := h.read
  have cut : w ++ data ++ reads.flatten = wire (m :: ms) := by
    rw [List.append_assoc, ← List.flatten_cons, h.cut]
  have short : ∀ k ∈ (m :: ms).head?, (w ++ data).length < k.encode.length := by
    rintro k ⟨⟩
    exact hlt
  obtain ⟨t, ht, nonneg⟩ := feed_stream_prefix single cut short
  have run : feed machine s data = .more t := by
    rw [← feed_append_of_more h.state, ht]
  rw [List.length_append] at hlt
  constructor
  · rw [endingIn, if_neg (by omega)]
    exact endingIn_of_le (by omega)
  · refine ⟨t, ends_of_exit (receivePass_of_more run nonneg), cut, ?_, short, ht⟩
    rw [List.length_append]
    omega

private theorem read_end (h : Midway (m :: ms) (data :: reads) pos start w s)
    (single : ∀ k ∈ ms, SingleLength k) (hle : m.encode.length ≤ (w ++ data).length)
    (alone : (endingIn start (start + data.length) pos (m :: ms)).length ≤ 1) :
    endingIn start (start + data.length) pos (m :: ms) = [m] ∧
      ∃ r u, Received s data [delivered m] u ∧
        Midway ms reads (pos + m.encode.length) (start + data.length) r u := by
  have read := h.read
  have before : w.length < m.encode.length := h.short m rfl
  have cut : w ++ data ++ reads.flatten = wire (m :: ms) := by
    rw [List.append_assoc, ← List.flatten_cons, h.cut]
  obtain ⟨r, split⟩ : m.encode <+: w ++ data :=
    List.prefix_of_prefix_length_le ⟨wire ms, rfl⟩ ⟨reads.flatten, cut⟩ hle
  have length := congrArg List.length split
  rw [List.length_append, List.length_append] at length
  have cutR : r ++ reads.flatten = wire ms := by
    rw [← split, List.append_assoc, wire, List.flatMap_cons] at cut
    exact List.append_cancel_left cut
  have batch : endingIn start (start + data.length) pos (m :: ms) =
      m :: endingIn start (start + data.length) (pos + m.encode.length) ms := by
    rw [endingIn, if_pos (by omega)]
  have none : endingIn start (start + data.length) (pos + m.encode.length) ms = [] := by
    rw [batch, List.length_cons] at alone
    exact List.length_eq_zero_iff.mp (by omega)
  have short : ∀ k ∈ ms.head?, r.length < k.encode.length := by
    intro k hk
    obtain ⟨ks, rfl⟩ := List.head?_eq_some_iff.mp hk
    by_contra hge
    rw [endingIn, if_pos (by omega)] at none
    cases none
  obtain ⟨u, hu, nonneg⟩ := feed_stream_prefix single cutR short
  refine ⟨by rw [batch, none], r, u, received_of_end h.state split.symm hu nonneg, ?_⟩
  exact ⟨cutR, by omega, short, hu⟩

theorem runs (h : Midway ms reads pos start w s) (single : ∀ m ∈ ms, SingleLength m)
    (nonempty : ∀ data ∈ reads, data ≠ [])
    (spread : ∀ batch ∈ schedule pos ms start reads, batch.length ≤ 1) :
    Runs s reads ((schedule pos ms start reads).map (List.map delivered)) .fresh := by
  induction reads generalizing ms pos start w s with
  | nil =>
      obtain ⟨-, rfl⟩ := h.fresh_of_nil
      exact .nil _
  | cons data reads ih =>
      obtain ⟨m, ms, rfl⟩ :=
        List.exists_cons_of_ne_nil (h.ne_nil (nonempty data (by simp)))
      have nonemptyReads : ∀ d ∈ reads, d ≠ [] := fun d hd => nonempty d (by simp [hd])
      have spreadReads : ∀ batch ∈ schedule pos (m :: ms) (start + data.length) reads,
          batch.length ≤ 1 := fun batch hb => spread batch (List.mem_cons_of_mem _ hb)
      by_cases hlt : (w ++ data).length < m.encode.length
      · obtain ⟨none, t, received, next⟩ := h.read_on single hlt
        rw [schedule, none]
        exact .cons received (ih next single nonemptyReads spreadReads)
      · have singleMs : ∀ k ∈ ms, SingleLength k := fun k hk => single k (by simp [hk])
        obtain ⟨batch, r, u, received, next⟩ :=
          h.read_end singleMs (not_lt.mp hlt) (spread _ List.mem_cons_self)
        have ended : pos + m.encode.length ≤ start + data.length := by
          rw [← next.read]
          omega
        rw [schedule_cons_of_le ended] at spreadReads
        rw [schedule, batch, schedule_cons_of_le ended]
        exact .cons received (ih next singleMs nonemptyReads spreadReads)

end Midway

/-- Every stream of requests is passed on request by request, each in the read that holds its
last byte, if no read holds the last bytes of two requests. -/
theorem session_frames_stream (ms : List Message) (single : ∀ m ∈ ms, SingleLength m)
    (reads : List Bytes) (nonempty : ∀ data ∈ reads, data ≠ [])
    (cut : reads.flatten = wire ms)
    (spread : ∀ batch ∈ schedule 0 ms 0 reads, batch.length ≤ 1) :
    Framed ms reads ∧ (schedule 0 ms 0 reads).flatten = ms := by
  refine ⟨?_, flatten_schedule cut⟩
  have start : Midway ms reads 0 0 [] .fresh :=
    ⟨cut, rfl, fun m _ => encode_length_pos m, rfl⟩
  exact start.runs single nonempty spread

/-- The request `GET / HTTP/1.0` without headers. -/
def rootRequest : Message where
  line := ⟨lit "GET", lit "/", lit "1", lit "0", by decide, by decide, by decide, by decide⟩
  headers := []
  body := []
  header_lines := by simp [HeaderLines]
  lengths_accepted := by simp [LengthsAccepted]
  body_declared := rfl

theorem session_frames_stream_two_requests :
    Framed [rootRequest, rootRequest]
        [lit "GET / HTTP/1.0\r\n\r", lit "\nGET / HT", lit "TP/1.0\r\n\r\n"] ∧
      schedule 0 [rootRequest, rootRequest] 0
        [lit "GET / HTTP/1.0\r\n\r", lit "\nGET / HT", lit "TP/1.0\r\n\r\n"] =
          [[], [rootRequest], [rootRequest]] := by
  have single : ∀ m ∈ [rootRequest, rootRequest], SingleLength m := by
    simp [SingleLength, rootRequest]
  have framed := session_frames_stream [rootRequest, rootRequest] single
    [lit "GET / HTTP/1.0\r\n\r", lit "\nGET / HT", lit "TP/1.0\r\n\r\n"]
    (by decide) (by decide) (by decide)
  exact ⟨framed.1, rfl⟩

/-- Two requests in one read: the second one is not passed on in it. -/
theorem two_requests_in_one_read :
    SingleLength rootRequest ∧ rootRequest.request.method = .GET ∧
      (wire [rootRequest, rootRequest]).length ≤ 8192 ∧
      ¬ Framed [rootRequest, rootRequest] [wire [rootRequest, rootRequest]] := by
  refine ⟨by simp [SingleLength, rootRequest], rfl, by decide, ?_⟩
  intro framed
  have one : ∃ t, receivePass (wire [rootRequest, rootRequest]) .fresh =
      .exit [delivered rootRequest] t :=
    ⟨_, rfl⟩
  obtain ⟨t, one⟩ := one
  have due : schedule 0 [rootRequest, rootRequest] 0 [wire [rootRequest, rootRequest]] =
      [[rootRequest, rootRequest]] :=
    rfl
  rw [Framed, due] at framed
  cases framed with
  | cons received _ =>
      have outs := congrArg List.length (received.unique (ends_of_exit one)).1
      simp at outs

end Wnza.Session.Framing
