/- GID: Wnza/Server/Turnaround
   generality: I
   source: src/session.cc (received_req, thread_work, wait_for_req), src/connection.cc
   digest: The bytes of a read are parsed, each of their requests is worked on, and the session reads
     again, while its socket is open and no other session ends the process. -/

import Wnza.Server.Lifetime

set_option autoImplicit false
set_option relaxedAutoImplicit false

namespace Wnza.Server.Turnaround

open Wnza.Foundation.DoWhile
open Wnza.Foundation.Fairness
open Wnza.Http.Text
open Wnza.Http.Parser (Parsing)
open Wnza.Handler.Basic
open Wnza.Handler.Echo
open Wnza.Session.Dispatch
open Wnza.Session.Receive
open Wnza.Server.Steps (Client Answer)
open Wnza.Server.Writes (responseBytes echoRequest received_echoRequest)
open Wnza.Server.Strand
open Wnza.Server.Lifetime

/-- What a client has got since a read found it: answers without an exception to the first of the
requests that the read has completed. -/
structure Given (c : Client) (out : List Delivery) (t : Parsing) (c' : Client)
    (given : List Answer) : Prop where
  parsing : c'.parsing = t
  answers : c'.answers = c.answers ++ given
  order : given.map Answer.delivery ++ c'.pending = out
  succeeded : ∀ a ∈ given, ∃ res cache, a.processed.result = .ok (res, cache)

/-- A session that is not done with the bytes of a read: they wait for the strand, or their requests
are worked on. -/
inductive Underway (c : Client) (out : List Delivery) (t : Parsing) (l : Link) : Prop
  | queued (data : Bytes) (reports : List Delivery) (waits : .received (some data) ∈ l.queue)
      (same : l.client = c) (parsed : ReceivedReporting c.parsing data out reports t)
  | working (given : List Answer) (running : l.running = true)
      (given_to : Given c out t l.client given)

/-- A session that is done with the bytes of a read, and waits for the next one. -/
structure Answered (c : Client) (out : List Delivery) (t : Parsing) (l : Link)
    (given : List Answer) : Prop where
  reading : l.reading = true
  finished : l.client.pending = []
  given_to : Given c out t l.client given

section Steps

variable {locations : Locations} {now : Nat} {cache cache' : Cache} {l l' : Link} {e : LinkEvent}
  {c : Client} {data : Bytes} {out reports : List Delivery} {t : Parsing}

private theorem received_unique (sound : Sound now l) {a b : Option Bytes}
    {before after : List Callback} (waits : .received a ∈ l.queue)
    (here : l.queue = before ++ .received b :: after) : a = b := by
  by_contra other
  have single := sound.single
  rw [here, countP_split] at single
  have first : 0 < (before ++ after).countP Callback.isReceived :=
    List.countP_pos_iff.mpr ⟨_, mem_drop here (by simpa using other) waits, rfl⟩
  have second : (Callback.isReceived (.received b)).toNat = 1 := rfl
  omega

theorem busy_of_waits (sound : Sound now l) {a : Option Bytes} (waits : .received a ∈ l.queue) :
    l.reading = false ∧ l.running = false := by
  have single := sound.single
  have used : 0 < l.queue.countP Callback.isReceived := List.countP_pos_iff.mpr ⟨_, waits, rfl⟩
  constructor
  · cases reading : l.reading with
    | false => rfl
    | true =>
        rw [reading, Bool.toNat_true] at single
        omega
  · cases running : l.running with
    | false => rfl
    | true =>
        rw [running, Bool.toNat_true] at single
        omega

private theorem Underway.not_reading (h : Underway c out t l) (sound : Sound now l) :
    l.reading = false := by
  cases h with
  | queued _ _ waits _ _ => exact (busy_of_waits sound waits).1
  | working _ running _ =>
      have single := sound.single
      cases reading : l.reading with
      | false => rfl
      | true =>
          rw [reading, running, Bool.toNat_true] at single
          omega

private theorem Underway.not_arrive (h : Underway c out t l) (sound : Sound now l)
    (next : LinkStep locations now cache l e cache' l') (bytes : Bytes) : e ≠ .arrive bytes := by
  rintro rfl
  have idle := h.not_reading sound
  cases next with
  | arrive reading =>
      rw [idle] at reading
      cases reading

private theorem step_queued (sound : Sound now l) (waits : .received (some data) ∈ l.queue)
    (parsed : ReceivedReporting l.client.parsing data out reports t)
    (next : LinkStep locations now cache l e cache' l') :
    Underway l.client out t l' := by
  obtain ⟨idle, free⟩ := busy_of_waits sound waits
  cases next with
  | expire => exact .queued data reports (List.mem_append_left _ waits) rfl parsed
  | arrive reading =>
      rw [idle] at reading
      cases reading
  | hangup reading =>
      rw [idle] at reading
      cases reading
  | reset => exact .queued data reports waits rfl parsed
  | send => exact .queued data reports (List.mem_append_left _ waits) rfl parsed
  | lose => exact .queued data reports (List.mem_append_left _ waits) rfl parsed
  | @received before after data' out' reports' t' _ here parsed' =>
      obtain rfl := Option.some.inj (received_unique sound waits here)
      obtain ⟨n, loop, -⟩ := parsed
      obtain ⟨n', loop', -⟩ := parsed'
      obtain ⟨rfl, same⟩ := Ends.unique ⟨n, loop⟩ ⟨n', loop'⟩
      obtain rfl := Ending.exited.inj same
      exact .working [] rfl ⟨rfl, (List.append_nil _).symm, rfl, by simp⟩
  | failed _ here => cases received_unique sound waits here
  | completed _ here => exact .queued data reports (mem_drop here (by simp) waits) rfl parsed
  | timeout _ here =>
      refine .queued data reports (mem_drop here (by simp) waits) ?_ parsed
      unfold Link.timeout
      split
      · rfl
      · rfl
  | work running =>
      rw [free] at running
      cases running
  | wait running =>
      rw [free] at running
      cases running
  | destroy unused =>
      obtain ⟨before, after, here⟩ := List.append_of_mem waits
      have used := references_queued here rfl
      omega

private theorem step_working (running : l.running = true) {given : List Answer}
    (h : Given c out t l.client given) (next : LinkStep locations now cache l e cache' l') :
    Underway c out t l' ∨ ∃ given', Answered c out t l' given' := by
  have busy : l.running ≠ false := by simp [running]
  cases next with
  | expire => exact .inl (.working given running h)
  | arrive => exact .inl (.working given running h)
  | hangup => exact .inl (.working given running h)
  | reset => exact .inl (.working given running h)
  | send => exact .inl (.working given running h)
  | lose => exact .inl (.working given running h)
  | received free => exact absurd free busy
  | failed free => exact absurd free busy
  | completed free => exact absurd free busy
  | timeout free => exact absurd free busy
  | @work w d rest res cache' _ pending _ served =>
      refine .inl (.working (given ++ [⟨d, cache, processReq locations w d.request cache⟩]) running
        ⟨h.parsing, ?_, ?_, ?_⟩)
      · simp only [h.answers, List.append_assoc]
      · rw [← h.order, pending]
        simp
      · intro a ha
        rcases List.mem_append.mp ha with ha | ha
        · exact h.succeeded a ha
        · obtain rfl := List.mem_singleton.mp ha
          exact ⟨res, cache', served⟩
  | wait _ last => exact .inr ⟨given, rfl, last, h.parsing, h.answers, h.order, h.succeeded⟩
  | destroy unused =>
      have used := references_running running
      omega

private theorem Underway.step (h : Underway c out t l) (sound : Sound now l)
    (next : LinkStep locations now cache l e cache' l') :
    Underway c out t l' ∨ ∃ given, Answered c out t l' given := by
  cases h with
  | queued data reports waits same parsed =>
      subst same
      exact .inl (step_queued sound waits parsed next)
  | working given running h => exact step_working running h next

private theorem Underway.mem_pending (h : Underway c out t l) (running : l.running = true)
    (sound : Sound now l) {d : Delivery} {rest : List Delivery}
    (pending : l.client.pending = d :: rest) :
    d ∈ out := by
  cases h with
  | queued _ _ waits =>
      rw [(busy_of_waits sound waits).2] at running
      cases running
  | working given _ h =>
      rw [← h.order, pending]
      simp

private theorem Underway.able (h : Underway c out t l) (sound : Sound now l)
    (attached : l.client.pending ≠ [] → l.Attached)
    (serves : ∀ d ∈ out, ∀ w, ∃ res cache', (processReq locations w d.request cache).result =
      .ok (res, cache')) : Able locations now cache l := by
  left
  have underway := h
  cases underway with
  | queued data reports waits same parsed =>
      subst same
      obtain ⟨before, after, here⟩ := List.append_of_mem waits
      exact ⟨_, _, _, .received (busy_of_waits sound waits).2 here parsed, trivial⟩
  | working given running given_to =>
      cases pending : l.client.pending with
      | nil => exact ⟨_, _, _, .wait running pending, trivial⟩
      | cons d rest =>
          have here := attached (by simp [pending])
          obtain ⟨res, cache', served⟩ :=
            serves d (h.mem_pending running sound pending) ⟨fun _ => none, []⟩
          exact ⟨_, _, _, .work running pending here served, trivial⟩

private theorem Underway.not_raises (h : Underway c out t l) (sound : Sound now l)
    (attached : l.client.pending ≠ [] → l.Attached)
    (serves : ∀ d ∈ out, ∀ w, ∃ res cache', (processReq locations w d.request cache).result =
      .ok (res, cache')) : ¬ Raises locations cache l := by
  intro raises
  cases raises with
  | @parse before after data' out' e free here raised =>
      cases h with
      | queued data reports waits same parsed =>
          subst same
          obtain rfl := Option.some.inj (received_unique sound waits here)
          obtain ⟨n, loop, -⟩ := parsed
          cases (Ends.unique ⟨n, loop⟩ raised).2
      | working _ running =>
          rw [free] at running
          cases running
  | log running pending detached => exact detached (attached (by simp [pending]))
  | @work w d rest e running pending _ raised =>
      obtain ⟨res, cache', served⟩ := serves d (h.mem_pending running sound pending) w
      rw [served] at raised
      cases raised

end Steps

section Runs

variable {locations : Locations} {run : Execution locations} {i N : Nat} {l : Link} {c : Client}
  {out : List Delivery} {t : Parsing}

/-- Whenever a request of a session waits for `thread_work`, its socket is open with its peer. -/
def Accompanied (run : Execution locations) (i N : Nat) : Prop :=
  ∀ n l, N ≤ n → (run.state n).links[i]? = some l → l.client.pending ≠ [] → l.Attached

private theorem underway_until (here : (run.state N).links[i]? = some l) (h : Underway c out t l)
    {n : Nat} (later : N ≤ n)
    (never : ∀ m l' given, N ≤ m → m ≤ n → (run.state m).links[i]? = some l' →
      ¬ Answered c out t l' given) :
    ∃ l', (run.state n).links[i]? = some l' ∧ Underway c out t l' := by
  induction n, later using Nat.le_induction with
  | base => exact ⟨l, here, h⟩
  | succ n later ih =>
      obtain ⟨l', found, underway⟩ :=
        ih (fun m l' given first last => never m l' given first (by omega))
      obtain ⟨e, l'', -, found', step⟩ | ⟨-, found'⟩ := Execution.link_next found
      · obtain underway' | ⟨given, done⟩ := underway.step (run.sound found) step
        · exact ⟨l'', found', underway'⟩
        · exact absurd done (never (n + 1) l'' given (by omega) le_rfl found')
      · exact ⟨l', found', underway⟩

private theorem Underway.answered_endless {run : Run locations} (h : Underway c out t l)
    (here : (run.state N).links[i]? = some l) (attached : Accompanied run.toExecution i N)
    (serves : ∀ d ∈ out, ∀ cache w, ∃ res cache',
      (processReq locations w d.request cache).result = .ok (res, cache'))
    (fair : WeaklyFair N (run.able i) (run.moves i)) :
    ∃ n l' given, N ≤ n ∧ (run.state n).links[i]? = some l' ∧ Answered c out t l' given := by
  by_contra unanswered
  have underway : ∀ n, N ≤ n → ∃ l', (run.state n).links[i]? = some l' ∧ Underway c out t l' := by
    intro n later
    refine underway_until here h later ?_
    intro m l' given first _ found done
    exact unanswered ⟨m, l', given, first, found, done⟩
  obtain ⟨bound, -⟩ := List.getElem?_eq_some_iff.mp here
  have silent : ∀ n l' data, N ≤ n → (run.state n).links[i]? = some l' → ¬ False →
      run.event n ≠ some (.link i (.arrive data)) := by
    intro n l' data later found _ event
    obtain ⟨l'', found', h'⟩ := underway n later
    obtain ⟨e, l₁, event', -, step⟩ | ⟨other, -⟩ := Execution.link_next found'
    · obtain ⟨-, same⟩ := Event.link.inj (Option.some.inj (event'.symm.trans event))
      exact h'.not_arrive (run.sound found') step data same
    · exact other _ event
  have able : ∀ m, N ≤ m → run.able i m := by
    intro m later
    obtain ⟨l', found, h'⟩ := underway m later
    exact ⟨run.endless m, l', found, h'.able (run.sound found) (attached m l' later found)
      (fun d hd => serves d hd _)⟩
  -- a session that is never done would go down for good
  have endless := @Run.ends _ _ run N (fun _ => False) bound fair silent
    (fun n _ later _ _ => ⟨n, le_rfl, fun m after => able m (by omega)⟩)
  obtain ⟨-, -, -, -, never_ends⟩ := endless
  exact never_ends

private theorem exists_raise (alive : (run.state N).ended = none)
    (ends : ¬ ∀ n, (run.state n).ended = none) :
    ∃ n j l, N ≤ n ∧ (run.state (n + 1)).ended = some j ∧ (run.state n).links[j]? = some l ∧
      Raises locations (run.state n).cache l := by
  obtain ⟨n, ended⟩ := not_forall.mp ends
  have later : N ≤ n := by
    by_contra before
    have stays : ∀ m, n ≤ m → (run.state m).ended ≠ none := by
      intro m after
      induction m, after using Nat.le_induction with
      | base => exact ended
      | succ m _ ih =>
          obtain ⟨-, same⟩ | ⟨e, -, next⟩ := run.next m
          · rw [same]
            exact ih
          · exact absurd (ended_step next).1 ih
    exact stays N (by omega) alive
  obtain ⟨m, first, before, after⟩ :=
    exists_change (P := fun n => (run.state n).ended ≠ none) (not_not.mpr alive) later ended
  obtain ⟨-, same⟩ | ⟨e, -, next⟩ := run.next m
  · rw [same] at after
    exact absurd after before
  · obtain ⟨-, none | ⟨j, l, -, raised, here, raises⟩⟩ := ended_step next
    · exact absurd none after
    · exact ⟨m, j, l, first, raised, here, raises⟩

theorem Underway.answered (h : Underway c out t l) (here : (run.state N).links[i]? = some l)
    (alive : (run.state N).ended = none) (attached : Accompanied run i N)
    (serves : ∀ d ∈ out, ∀ cache w, ∃ res cache',
      (processReq locations w d.request cache).result = .ok (res, cache'))
    (fair : WeaklyFair N (run.able i) (run.moves i)) :
    ∃ n, N ≤ n ∧
      ((∃ l' given, (run.state n).links[i]? = some l' ∧ Answered c out t l' given) ∨
        ∃ j, j ≠ i ∧ (run.state n).ended = some j) := by
  by_cases endless : ∀ n, (run.state n).ended = none
  · obtain ⟨n, l', given, later, found, done⟩ :=
      @Underway.answered_endless _ _ _ _ _ _ _ ⟨run, endless⟩ h here attached serves fair
    exact ⟨n, later, .inl ⟨l', given, found, done⟩⟩
  · obtain ⟨m, j, l₁, later, ended, found₁, raises⟩ := exists_raise alive endless
    by_cases other : j = i
    · subst other
      -- the session itself raises, but not before it is done
      by_contra unanswered
      obtain ⟨l', found, underway⟩ := underway_until here h later (by
        intro k l' given first _ found done
        exact unanswered ⟨k, first, .inl ⟨l', given, found, done⟩⟩)
      obtain rfl := Option.some.inj (found.symm.trans found₁)
      exact underway.not_raises (run.sound found) (attached m l' later found)
        (fun d hd => serves d hd _) raises
    · exact ⟨m + 1, by omega, .inr ⟨j, other, ended⟩⟩

end Runs

/-- In every execution in which threads go on running what a session can run, and in which its socket
is open with its peer whenever one of its requests waits for `thread_work`: the bytes of a read that
has ended are parsed, `process_req` returns for each request that they complete, in its place, and
the session reads again, unless the exception of another session ends the process. -/
theorem reads_answered (locations : Locations) (run : Execution locations) (i N : Nat) (l : Link)
    (data : Bytes) (out reports : List Delivery) (t : Parsing)
    (alive : (run.state N).ended = none) (here : (run.state N).links[i]? = some l)
    (waits : .received (some data) ∈ l.queue)
    (parsed : ReceivedReporting l.client.parsing data out reports t)
    (attached : Accompanied run i N)
    (serves : ∀ d ∈ out, ∀ cache w, ∃ res cache',
      (processReq locations w d.request cache).result = .ok (res, cache'))
    (fair : WeaklyFair N (run.able i) (run.moves i)) :
    ∃ n, N ≤ n ∧
      ((∃ l' given, (run.state n).links[i]? = some l' ∧ Answered l.client out t l' given) ∨
        ∃ j, j ≠ i ∧ (run.state n).ended = some j) :=
  Underway.answered (.queued data reports waits rfl parsed) here alive attached serves fair

def echoData : Bytes := lit "GET /echo/ HTTP/1.0\r\n\r\n"

def echoAnswer : Answer :=
  ⟨echoRequest, ∅, processReq echoLocations ⟨fun _ => none, []⟩ echoRequest.request ∅⟩

def echoCache : Cache :=
  (∅ : Cache).insert (lit "/echo/") (echoResponse ⟨fun _ => none, []⟩ echoRequest.request)

def echoLink : Link :=
  ⟨⟨.fresh, [], [echoRequest], [echoAnswer]⟩, [echoRequest], [⟨responseBytes echoAnswer, true⟩], [],
    true, true, some 3000, true, false, [], false⟩

def echoState : Nat → Async
  | 0 => .started
  | 1 => ⟨0, ∅, [Link.accepted.read 0], none⟩
  | 2 => ⟨0, ∅, [{ Link.accepted with
      timer := some 3000, queue := [.received (some echoData)] }], none⟩
  | 3 => ⟨0, ∅, [{ Link.accepted with
      timer := some 3000, running := true, requests := [echoRequest],
      client := ⟨.fresh, [echoRequest], [echoRequest], []⟩ }], none⟩
  | 4 => ⟨0, echoCache, [{ echoLink with reading := false, running := true }], none⟩
  | 5 => ⟨0, echoCache, [{ echoLink with queue := [.timeout true] }], none⟩
  | _ + 6 => ⟨0, echoCache, [echoLink], none⟩

def echoEvent : Nat → Event
  | 0 => .accept
  | 1 => .link 0 (.arrive echoData)
  | 2 => .link 0 (.run (.received (some echoData)))
  | 3 => .link 0 (.work ⟨fun _ => none, []⟩)
  | 4 => .link 0 .wait
  | 5 => .link 0 (.run (.timeout true))
  | _ + 6 => .tick 0

private theorem echo_next : ∀ n, Step echoLocations (echoState n) (echoEvent n) (echoState (n + 1))
  | 0 => .accept rfl
  | 1 => .link (i := 0) rfl rfl (@LinkStep.arrive _ _ _ _ echoData rfl rfl (by decide) (by decide))
  | 2 => .link (i := 0) rfl rfl
      (@LinkStep.received _ _ _ _ [] [] _ _ _ _ rfl rfl received_echoRequest)
  | 3 => .link (i := 0) rfl rfl (.work (w := ⟨fun _ => none, []⟩) rfl rfl ⟨rfl, rfl⟩ rfl)
  | 4 => .link (i := 0) rfl rfl (.wait rfl rfl)
  | 5 => .link (i := 0) rfl rfl (@LinkStep.timeout _ _ _ _ [] [] true rfl rfl)
  | _ + 6 => .tick rfl 0

def echoRun : Execution echoLocations where
  state := echoState
  event n := some (echoEvent n)
  start := rfl
  next n := .inr ⟨_, rfl, echo_next n⟩

theorem echo_endless : ∀ n, (echoRun.state n).ended = none
  | 0 | 1 | 2 | 3 | 4 | 5 | _ + 6 => rfl

theorem echo_accompanied : Accompanied echoRun 0 2 := by
  intro n l later here waits
  match n, later with
  | 2, _ | 3, _ | 4, _ | 5, _ | _ + 6, _ =>
    obtain rfl := Option.some.inj here
    exact ⟨rfl, rfl⟩

theorem echo_not_able (n : Nat) : ¬ echoRun.able 0 (n + 6) := by
  rintro ⟨-, l, here, able⟩
  obtain rfl := Option.some.inj here
  refine not_able_of_quiet rfl rfl ?_ (.inl rfl) (.inl (by decide)) able
  intro t armed
  obtain rfl := Option.some.inj armed
  exact Nat.zero_lt_succ 2999

theorem reads_answered_echo :
    ∃ n l given, 2 ≤ n ∧ (echoRun.state n).links[0]? = some l ∧
      Answered .connected [echoRequest] .fresh l given := by
  have answered := reads_answered echoLocations echoRun 0 2 _ echoData _ _ _ rfl rfl
    List.mem_cons_self received_echoRequest echo_accompanied ?_ ?_
  · obtain ⟨n, later, ⟨l, given, found, done⟩ | ⟨j, -, ended⟩⟩ := answered
    · exact ⟨n, l, given, later, found, done⟩
    · rw [echo_endless n] at ended
      cases ended
  · intro d hd cache w
    obtain rfl := List.mem_singleton.mp hd
    cases fresh : cached cache echoRequest.request.uri with
    | some res => exact ⟨res, cache, by simp only [processReq, fresh]⟩
    | none =>
        have routed := @processReq_of_routed echoLocations _ _ _ _ w (by decide) fresh rfl rfl
        exact ⟨_, _, routed.2⟩
  · intro n _ able
    exact absurd (able (n + 6) (by omega)) (echo_not_able n)

end Wnza.Server.Turnaround
