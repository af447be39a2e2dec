/- GID: Wnza/Server/Conversation
   generality: I
   source: src/session.cc, src/connection.cc
   digest: The requests that a client streams are worked on, each in its place, while its socket is open
     and no other session ends the process. -/

import Wnza.Server.Streams
import Wnza.Server.Turnaround
import Wnza.Session.Routing

set_option autoImplicit false
set_option relaxedAutoImplicit false

namespace Wnza.Server.Conversation

open Wnza.Foundation.Fairness
open Wnza.Http.Text
open Wnza.Http.Parser (Request Parsing)
open Wnza.Http.Grammar
open Wnza.Handler.Basic
open Wnza.Session.Dispatch
open Wnza.Session.Routing
open Wnza.Session.Receive
open Wnza.Session.Framing
open Wnza.Server.Steps (Answer Client)
open Wnza.Server.Writes (echoRequest)
open Wnza.Server.Strand
open Wnza.Server.Lifetime
open Wnza.Server.Streams (passedOn runs_concat runs_of_prefix)
open Wnza.Server.Turnaround

/-- Every request can be answered: no path is empty, and the handlers return. -/
structure Responsive (locations : Locations) : Prop where
  named : ∀ path ∈ locations, path ≠ []
  returns : ∀ (path : Bytes) handler, locations[path]? = some handler → ∀ req w,
    ∃ res, handler.handleRequest w req = .ok res

private theorem Responsive.serves {locations : Locations} (h : Responsive locations) (req : Request)
    (cache : Cache) (w : World) :
    ∃ res cache', (processReq locations w req cache).result = .ok (res, cache') := by
  cases fresh : cached cache req.uri with
  | some res => exact ⟨res, cache, by simp only [processReq, fresh]⟩
  | none =>
      by_cases unrouted : req.method = .INVALID ∨ route locations req.uri = .ok none
      · refine ⟨Response.empty.make400Error, cache, ?_⟩
        rw [processReq_of_unrouted _ fresh unrouted]
        rfl
      · obtain ⟨valid, some⟩ := not_or.mp unrouted
        cases routed : route locations req.uri with
        | error e => simp [route_eq h.named] at routed
        | ok found =>
            cases found with
            | none => exact absurd routed some
            | some path =>
                obtain ⟨mem, -⟩ := mem_of_route h.named routed
                obtain ⟨handler, found⟩ := Option.isSome_iff_exists.mp
                  (Std.ExtTreeMap.mem_iff_isSome_getElem?.mp mem)
                obtain ⟨res, returned⟩ := h.returns path handler found req w
                have result := (processReq_of_routed w valid fresh routed found).2
                rw [returned] at result
                exact ⟨_, _, result⟩

/-- The bytes that a callback carries to `received_req`. -/
def bytesOf : Callback → Option Bytes
  | .received data => data
  | _ => none

def bytesIn : LinkEvent → Option Bytes
  | .arrive data => some data
  | _ => none

def arrivedOn (i : Nat) : Option Event → Option Bytes
  | some (.link j e) => if j = i then bytesIn e else none
  | _ => none

/-- The bytes of the reads on one connection that have ended so far. -/
def arrivals {locations : Locations} (run : Execution locations) (i : Nat) : Nat → List Bytes
  | 0 => []
  | n + 1 => arrivals run i n ++ (arrivedOn i (run.event n)).toList

/-- What has become of the bytes of the reads: those that were taken from the strand have left the
parser as it is and have completed the requests passed on. -/
structure Kept (reads : List Bytes) (l : Link) (taken : List Bytes)
    (outs : List (List Delivery)) : Prop where
  nonempty : ∀ data ∈ reads, data ≠ []
  reads_eq : reads = taken ++ l.queue.filterMap bytesOf
  runs : Runs .fresh taken outs l.client.parsing
  passed : passedOn l.client = outs.flatten
  returned : ∀ a ∈ l.client.answers, ∃ res cache, a.processed.result = .ok (res, cache)

section Steps

variable {locations : Locations} {now : Nat} {cache cache' : Cache} {l l' : Link} {e : LinkEvent}
  {reads taken : List Bytes} {outs : List (List Delivery)}

private theorem Kept.same (h : Kept reads l taken outs) (client : l'.client = l.client)
    (queue : l'.queue.filterMap bytesOf = l.queue.filterMap bytesOf) :
    Kept reads l' taken outs := by
  refine ⟨h.nonempty, ?_, ?_, ?_, ?_⟩
  · rw [queue]
    exact h.reads_eq
  · rw [client]
    exact h.runs
  · rw [client]
    exact h.passed
  · rw [client]
    exact h.returned

private theorem bytesOf_cancelled : l.cancelled.filterMap bytesOf = [] := by
  unfold Link.cancelled
  split
  · rfl
  · rfl

private theorem bytesOf_drop {before after : List Callback} {c : Callback}
    (here : l.queue = before ++ c :: after) (plain : bytesOf c = none) :
    (before ++ after).filterMap bytesOf = l.queue.filterMap bytesOf := by
  rw [here, List.filterMap_append, List.filterMap_append, List.filterMap_cons_none plain]

private theorem bytesOf_single (sound : Sound now l) {before after : List Callback} {data : Bytes}
    (here : l.queue = before ++ .received (some data) :: after) :
    (before ++ after).filterMap bytesOf = [] ∧ l.queue.filterMap bytesOf = [data] := by
  have single := sound.single
  rw [here, countP_split] at single
  have used : (Callback.isReceived (.received (some data))).toNat = 1 := rfl
  have none : (before ++ after).filterMap bytesOf = [] := by
    rw [List.filterMap_eq_nil_iff]
    intro c hc
    cases c with
    | received data' =>
        have other : 0 < (before ++ after).countP Callback.isReceived :=
          List.countP_pos_iff.mpr ⟨_, hc, rfl⟩
        omega
    | completed => rfl
    | timeout aborted => rfl
  refine ⟨none, ?_⟩
  have carried : bytesOf (.received (some data)) = some data := rfl
  rw [List.filterMap_append, List.append_eq_nil_iff] at none
  rw [here, List.filterMap_append, none.1, List.filterMap_cons_some carried, none.2,
    List.nil_append]

private theorem Kept.step (h : Kept reads l taken outs) (sound : Sound now l)
    (next : LinkStep locations now cache l e cache' l') :
    ∃ taken' outs', Kept (reads ++ (bytesIn e).toList) l' taken' outs' := by
  -- a step that brings no bytes, in which the queue loses none
  have unchanged : (client : l'.client = l.client) → (bytesIn e = none) →
      (l'.queue.filterMap bytesOf = l.queue.filterMap bytesOf) →
      ∃ taken' outs', Kept (reads ++ (bytesIn e).toList) l' taken' outs' := by
    intro client none queue
    rw [none, Option.toList_none, List.append_nil]
    exact ⟨taken, outs, h.same client queue⟩
  cases next with
  | expire => exact unchanged rfl rfl (by simp [bytesOf])
  | @arrive data _ _ some =>
      refine ⟨taken, outs, ?_, ?_, h.runs, h.passed, h.returned⟩
      · exact forall_mem_concat h.nonempty some
      · simp [h.reads_eq, bytesIn, bytesOf]
  | hangup => exact unchanged rfl rfl (by simp [bytesOf])
  | reset => exact unchanged rfl rfl rfl
  | @send _ _ _ rest =>
      refine unchanged rfl rfl ?_
      by_cases last : rest = []
      · simp [last, bytesOf]
      · simp [last]
  | lose => exact unchanged rfl rfl (by simp [bytesOf])
  | @received before after data out reports t free here parsed =>
      obtain ⟨others, alone⟩ := bytesOf_single sound here
      obtain ⟨n, ends, -⟩ := parsed
      refine ⟨taken ++ [data], outs ++ [out], ?_, ?_, runs_concat h.runs ⟨n, ends⟩, ?_, h.returned⟩
      · simpa [bytesIn] using h.nonempty
      · simp [h.reads_eq, bytesIn, others, alone]
      · have passed := h.passed
        rw [passedOn, sound.idle free, List.append_nil] at passed
        simp [passedOn, passed]
  | failed _ here => exact unchanged rfl rfl (bytesOf_drop here rfl)
  | completed _ here => exact unchanged rfl rfl (bytesOf_drop here rfl)
  | @timeout _ _ aborted _ here =>
      refine unchanged ?_ rfl (bytesOf_drop here rfl)
      cases aborted with
      | true => rfl
      | false => rfl
  | work _ pending _ served =>
      have passed := h.passed
      rw [passedOn, pending] at passed
      refine ⟨taken, outs, ?_, ?_, h.runs, ?_, forall_mem_concat h.returned ⟨_, _, served⟩⟩
      · simpa [bytesIn] using h.nonempty
      · simpa [bytesIn] using h.reads_eq
      · simpa [passedOn] using passed
  | wait => exact unchanged rfl rfl (by simp [Link.read, bytesOf_cancelled])
  | destroy => exact unchanged rfl rfl (by simp [bytesOf_cancelled])

private theorem Kept.done_or_underway {whole : List (List Delivery)} {t : Parsing}
    (h : Kept reads l taken outs) (sound : Sound now l) (framed : Runs .fresh reads whole t) :
    (l.client.pending = [] ∧ l.client.answers.map Answer.delivery = whole.flatten) ∨
      ∃ out t', Underway l.client out t' l ∧
        l.client.answers.map Answer.delivery ++ out = whole.flatten := by
  have passed := h.passed
  rw [passedOn] at passed
  by_cases waiting : ∃ data, .received (some data) ∈ l.queue
  · right
    obtain ⟨data, waits⟩ := waiting
    obtain ⟨before, after, here⟩ := List.append_of_mem waits
    obtain ⟨-, alone⟩ := bytesOf_single sound here
    rw [h.reads_eq, alone] at framed
    obtain ⟨outs', out, t', rfl, runs, last⟩ := framed.concat_inv
    obtain ⟨rfl, rfl⟩ := h.runs.unique runs
    obtain ⟨n, ends⟩ := last
    have free := (busy_of_waits sound waits).2
    refine ⟨out, t, .queued data _ waits rfl ⟨n, ends, rfl⟩, ?_⟩
    rw [sound.idle free, List.append_nil] at passed
    simp [passed]
  · have none : l.queue.filterMap bytesOf = [] := by
      rw [List.filterMap_eq_nil_iff]
      intro c hc
      cases c with
      | received data =>
          cases data with
          | none => rfl
          | some data => exact absurd ⟨data, hc⟩ waiting
      | completed => rfl
      | timeout aborted => rfl
    rw [h.reads_eq, none, List.append_nil] at framed
    obtain ⟨rfl, -⟩ := h.runs.unique framed
    cases running : l.running with
    | true =>
        right
        exact ⟨l.client.pending, l.client.parsing,
          .working [] running ⟨rfl, (List.append_nil _).symm, rfl, by simp⟩, passed⟩
    | false =>
        left
        have idle := sound.idle running
        rw [idle, List.append_nil] at passed
        exact ⟨idle, passed⟩

end Steps

section Runs

variable {locations : Locations}

private theorem arrivedOn_of_ne {i : Nat} {e : Option Event} (other : ∀ e', e ≠ some (.link i e')) :
    arrivedOn i e = none := by
  match e with
  | none | some .accept | some (.tick _) | some (.raise _) => rfl
  | some (.link j e') =>
      have hj : j ≠ i := by
        rintro rfl
        exact other e' rfl
      simp [arrivedOn, hj]

private theorem kept (run : Execution locations) (i n : Nat) :
    ((run.state n).links.length ≤ i ∧ arrivals run i n = []) ∨
      ∃ l taken outs, (run.state n).links[i]? = some l ∧ Kept (arrivals run i n) l taken outs := by
  induction n with
  | zero =>
      left
      rw [run.start]
      exact ⟨Nat.zero_le i, rfl⟩
  | succ n ih =>
      simp only [arrivals]
      obtain ⟨later, nothing⟩ | ⟨l, taken, outs, here, h⟩ := ih
      · rw [nothing, List.nil_append]
        obtain ⟨rests, same⟩ | ⟨e, event, next⟩ := run.next n
        · rw [rests, same]
          exact .inl ⟨later, rfl⟩
        · rw [event]
          generalize run.state (n + 1) = τ at next
          cases next with
          | accept =>
              by_cases first : i = (run.state n).links.length
              · subst first
                refine .inr ⟨_, [], [], List.getElem?_concat_length, ?_, rfl, .nil _, rfl, ?_⟩
                · simp [arrivedOn]
                · simp [Link.read, Link.accepted, Client.connected]
              · refine .inl ⟨?_, rfl⟩
                simp only [List.length_append, List.length_singleton]
                omega
          | tick => exact .inl ⟨later, rfl⟩
          | raise => exact .inl ⟨later, rfl⟩
          | @link j l l' e cache alive found step =>
              obtain ⟨bound, -⟩ := List.getElem?_eq_some_iff.mp found
              have other : j ≠ i := by omega
              refine .inl ⟨?_, ?_⟩
              · rw [List.length_set]
                exact later
              · simp [arrivedOn, other]
      · right
        obtain ⟨e, l', event, found, step⟩ | ⟨other, found⟩ := Execution.link_next here
        · obtain ⟨taken', outs', h'⟩ := h.step (run.sound here) step
          refine ⟨l', taken', outs', found, ?_⟩
          simpa [event, arrivedOn] using h'
        · refine ⟨l, taken, outs, found, ?_⟩
          rw [arrivedOn_of_ne other, Option.toList_none, List.append_nil]
          exact h

end Runs

/-- A client that streams well-formed requests, at most one of which ends in each read, on a server
whose handlers return and whose threads go on running what the session can run, over a socket that
is open with its peer whenever a request waits for `thread_work`: `process_req` returns for all
requests that have arrived completely, in their order, unless the exception of another session ends
the process. -/
theorem stream_served (locations : Locations) (responsive : Responsive locations)
    (run : Execution locations) (i N : Nat) (alive : (run.state N).ended = none)
    (connected : i < (run.state N).links.length) (ms : List Message)
    (single : ∀ m ∈ ms, SingleLength m) (cut : (arrivals run i N).flatten <+: wire ms)
    (spread : ∀ batch ∈ schedule 0 ms 0 (arrivals run i N), batch.length ≤ 1)
    (attached : Accompanied run i N) (fair : WeaklyFair N (run.able i) (run.moves i)) :
    ∃ n, N ≤ n ∧
      ((∃ l, (run.state n).links[i]? = some l ∧ l.client.pending = [] ∧
          l.client.answers.map Answer.delivery =
            (endingIn 0 (arrivals run i N).flatten.length 0 ms).map delivered ∧
          ∀ a ∈ l.client.answers, ∃ res cache, a.processed.result = .ok (res, cache)) ∨
        ∃ j, j ≠ i ∧ (run.state n).ended = some j) := by
  obtain ⟨early, -⟩ | ⟨l, taken, outs, here, h⟩ := kept run i N
  · omega
  obtain ⟨rest, cut⟩ := cut
  obtain ⟨t, framed⟩ := runs_of_prefix single h.nonempty cut spread
  have total : ((schedule 0 ms 0 (arrivals run i N)).map (List.map delivered)).flatten =
      (endingIn 0 (arrivals run i N).flatten.length 0 ms).map delivered := by
    rw [← List.map_flatten, flatten_schedule_eq, Nat.zero_add]
  rw [← total]
  obtain ⟨idle, all⟩ | ⟨out, t', underway, all⟩ := h.done_or_underway (run.sound here) framed
  · exact ⟨N, le_rfl, .inl ⟨l, here, idle, all, h.returned⟩⟩
  · obtain ⟨n, later, ⟨l', given, found, answered⟩ | ended⟩ := underway.answered here alive attached
      (fun d _ cache w => responsive.serves d.request cache w) fair
    · have order := answered.given_to.order
      rw [answered.finished, List.append_nil] at order
      refine ⟨n, later, .inl ⟨l', found, answered.finished, ?_, ?_⟩⟩
      · rw [answered.given_to.answers, List.map_append, order, all]
      · rw [answered.given_to.answers]
        intro a ha
        rcases List.mem_append.mp ha with ha | ha
        · exact h.returned a ha
        · exact answered.given_to.succeeded a ha
    · exact ⟨n, later, .inr ended⟩

private theorem responsive_echo : Responsive echoLocations where
  named path mem := by
    rw [echoLocations, Std.ExtTreeMap.mem_insert] at mem
    rcases mem with same | mem
    · obtain rfl := Std.LawfulEqCmp.eq_of_compare same
      decide
    · simp at mem
  returns path handler found req w := by
    rw [echoLocations, Std.ExtTreeMap.getElem?_insert] at found
    split at found
    · obtain rfl := Option.some.inj found
      exact ⟨_, rfl⟩
    · simp at found

private theorem exists_echoMessage :
    ∃ m : Message, m.encode = echoData ∧ delivered m = echoRequest ∧ SingleLength m :=
  ⟨⟨⟨lit "GET", lit "/echo/", lit "1", lit "0", by decide, by decide, by decide, by decide⟩, [], [],
    by simp [HeaderLines], by simp [LengthsAccepted], rfl⟩, by decide, rfl, by simp [SingleLength]⟩

theorem stream_served_echo :
    ∃ n l, (echoRun.state n).links[0]? = some l ∧
      l.client.answers.map Answer.delivery = [echoRequest] := by
  obtain ⟨m, encoded, passed, single⟩ := exists_echoMessage
  have arrived : arrivals echoRun 0 2 = [echoData] := rfl
  have ends : endingIn 0 echoData.length 0 [m] = [m] := by
    rw [endingIn, encoded, if_pos (by decide), endingIn]
  obtain ⟨n, -, ⟨l, found, -, answers, -⟩ | ⟨j, -, ended⟩⟩ :=
    stream_served echoLocations responsive_echo echoRun 0 2 rfl (by decide) [m]
      (by simpa using single)
      (by rw [arrived, wire, List.flatMap_singleton, encoded, List.flatten_singleton])
      (by
        intro batch hbatch
        simp only [arrived, schedule, Nat.zero_add, ends, List.mem_singleton] at hbatch
        simp [hbatch])
      echo_accompanied (fun n _ able => absurd (able (n + 6) (by omega)) (echo_not_able n))
  · refine ⟨n, l, found, ?_⟩
    rw [answers, arrived, List.flatten_singleton, ends, List.map_singleton, passed]
  · rw [echo_endless n] at ended
    cases ended

end Wnza.Server.Conversation
