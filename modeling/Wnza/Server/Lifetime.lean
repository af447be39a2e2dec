/- GID: Wnza/Server/Lifetime
   generality: I
   source: include/connection.h, src/connection.cc, src/session.cc
   digest: A session whose peer falls silent is destroyed, however its callbacks are scheduled. -/

import Mathlib.Data.Prod.Lex
import Mathlib.Algebra.BigOperators.Group.List.Basic
import Wnza.Foundation.Fairness
import Wnza.Server.Strand

set_option autoImplicit false
set_option relaxedAutoImplicit false

namespace Wnza.Server.Lifetime

open Wnza.Foundation.Fairness
open Wnza.Http.Text
open Wnza.Handler.Basic
open Wnza.Session.Dispatch
open Wnza.Session.Receive
open Wnza.Server.Strand

/-- The steps that a session takes without its peer. -/
def Own (l : Link) : LinkEvent → Prop
  | .arrive _ => False
  | .reset => False
  | .send => False
  | .hangup => l.opened = false
  | .lose => l.opened = false
  | _ => True

/-- A session can take a step without its peer, or raise an exception. -/
def Able (locations : Locations) (now : Nat) (cache : Cache) (l : Link) : Prop :=
  (∃ e cache' l', LinkStep locations now cache l e cache' l' ∧ Own l e) ∨
    Raises locations cache l

/-- What a session has to run returns: the loop of `received_req` ends, and `process_req` does not
raise. -/
structure Returns (locations : Locations) (cache : Cache) (l : Link) : Prop where
  parses : ∀ data, .received (some data) ∈ l.queue → l.running = false →
    ∃ out reports t, ReceivedReporting l.client.parsing data out reports t
  serves : ∀ d rest, l.running = true → l.client.pending = d :: rest →
    ∃ w res cache', (processReq locations w d.request cache).result = .ok (res, cache')

section Progress

variable {locations : Locations} {now : Nat} {cache cache' : Cache} {l l' : Link}

private theorem able_queued (free : l.running = false) (returns : Returns locations cache l)
    {c : Callback} {rest : List Callback} (queued : l.queue = c :: rest) :
    Able locations now cache l := by
  cases c with
  | timeout aborted =>
      exact .inl ⟨_, _, _, @LinkStep.timeout _ _ _ _ [] rest _ free queued, trivial⟩
  | completed => exact .inl ⟨_, _, _, @LinkStep.completed _ _ _ _ [] rest free queued, trivial⟩
  | received data =>
      cases data with
      | none => exact .inl ⟨_, _, _, @LinkStep.failed _ _ _ _ [] rest free queued, trivial⟩
      | some data =>
          have waits : .received (some data) ∈ l.queue := by
            rw [queued]
            exact List.mem_cons_self
          obtain ⟨out, reports, t, parsed⟩ := returns.parses data waits free
          exact .inl
            ⟨_, _, _, @LinkStep.received _ _ _ _ [] rest _ _ _ _ free queued parsed, trivial⟩

private theorem able_closed (closed : l.opened = false) (free : l.running = false)
    (empty : l.queue = []) (live : l.destroyed = false) : Able locations now cache l := by
  cases reading : l.reading with
  | true => exact .inl ⟨_, _, _, .hangup reading, closed⟩
  | false =>
      by_cases writing : ∃ w ∈ l.writes, w.pending = true
      · obtain ⟨⟨rest, pending⟩, hw, rfl⟩ := writing
        obtain ⟨before, after, here⟩ := List.append_of_mem hw
        exact .inl ⟨_, _, _, .lose here, closed⟩
      · have none : l.writes.countP Write.pending = 0 := by
          rw [List.countP_eq_zero]
          intro w hw pending
          exact writing ⟨w, hw, pending⟩
        refine .inl ⟨_, _, _, .destroy ?_ live, trivial⟩
        simp [Link.references, empty, none, reading, free]

private theorem able_or_waits (sound : Sound now l) (returns : Returns locations cache l)
    (live : l.destroyed = false) :
    Able locations now cache l ∨ ∃ t, l.timer = some t ∧ now < t := by
  cases free : l.running with
  | true =>
      left
      cases pending : l.client.pending with
      | nil => exact .inl ⟨_, _, _, .wait free pending, trivial⟩
      | cons d rest =>
          by_cases attached : l.Attached
          · obtain ⟨w, res, cache', served⟩ := returns.serves d rest free pending
            exact .inl ⟨_, _, _, @LinkStep.work _ _ _ _ w _ _ _ _ free pending attached served,
              trivial⟩
          · exact .inr (.log free pending attached)
  | false =>
      cases queued : l.queue with
      | cons c rest => exact .inl (able_queued free returns queued)
      | nil =>
          cases opened : l.opened with
          | false => exact .inl (able_closed opened free queued live)
          | true =>
              obtain armed | waits := sound.watched opened
              · obtain ⟨t, armed⟩ := Option.isSome_iff_exists.mp armed
                by_cases due : t ≤ now
                · exact .inl (.inl ⟨_, _, _, .expire armed due, trivial⟩)
                · exact .inr ⟨t, armed, by omega⟩
              · rw [queued] at waits
                cases waits

theorem not_able_of_quiet (queue : l.queue = []) (free : l.running = false)
    (early : ∀ t, l.timer = some t → now < t)
    (idle : l.opened = true ∨ l.reading = false ∧ l.writes = [])
    (kept : 0 < l.references ∨ l.destroyed = true) : ¬ Able locations now cache l := by
  have busy : l.running ≠ true := by simp [free]
  rintro (⟨e, cache', l', step, own⟩ | raises)
  · cases step with
    | @expire t armed due =>
        have later := early t armed
        omega
    | arrive => exact own
    | hangup reading =>
        have closed : l.opened = false := own
        simp [closed, reading] at idle
    | reset => exact own
    | send => exact own
    | lose here =>
        have closed : l.opened = false := own
        simp [closed, here] at idle
    | received _ queued => simp [queue] at queued
    | failed _ queued => simp [queue] at queued
    | completed _ queued => simp [queue] at queued
    | timeout _ queued => simp [queue] at queued
    | work running => exact busy running
    | wait running => exact busy running
    | destroy unused live =>
        rcases kept with used | gone
        · omega
        · simp [gone] at live
  · cases raises with
    | parse _ queued => simp [queue] at queued
    | log running => exact busy running
    | work running => exact busy running

end Progress

section Rank

def carries : Callback → Bool
  | .received (some _) => true
  | _ => false

def cost (w : Write) : Nat := if w.pending then w.rest.length + 2 else 0

def weight (l : Link) : Nat :=
  (l.writes.map cost).sum + l.queue.length + 2 * l.timer.isSome.toNat + 2 * l.reading.toNat +
    2 * (!l.destroyed).toNat + l.peer.toNat

/-- The rank of a session: the bytes it has still to parse, the requests it is working on, and the
steps that are left then. -/
def rank (l : Link) : Nat ×ₗ Nat ×ₗ Nat :=
  toLex (l.queue.countP carries,
    toLex (if l.running then l.client.pending.length + 1 else 0, weight l))

variable {locations : Locations} {now : Nat} {cache cache' : Cache} {l l' : Link} {e : LinkEvent}

private theorem rank_of_parsed (fewer : l'.queue.countP carries < l.queue.countP carries) :
    rank l' < rank l :=
  Prod.Lex.toLex_lt_toLex.mpr (.inl fewer)

private theorem rank_of_weight (queue : l'.queue.countP carries = l.queue.countP carries)
    (running : l'.running = l.running) (client : l'.client = l.client)
    (lighter : weight l' < weight l) : rank l' < rank l := by
  refine Prod.Lex.toLex_lt_toLex.mpr
    (.inr ⟨queue, Prod.Lex.toLex_lt_toLex.mpr (.inr ⟨?_, lighter⟩)⟩)
  simp only [running, client]

private theorem rank_of_worked (queue : l'.queue.countP carries = l.queue.countP carries)
    (fewer : (if l'.running then l'.client.pending.length + 1 else 0) <
      if l.running then l.client.pending.length + 1 else 0) : rank l' < rank l :=
  Prod.Lex.toLex_lt_toLex.mpr (.inr ⟨queue, Prod.Lex.toLex_lt_toLex.mpr (.inl fewer)⟩)

private theorem cost_split (before after : List Write) (w : Write) :
    ((before ++ w :: after).map cost).sum = ((before ++ after).map cost).sum + cost w := by
  simp only [List.map_append, List.map_cons, List.sum_append, List.sum_cons]
  omega

private theorem cancelled_length : l.cancelled.length = l.timer.isSome.toNat := by
  unfold Link.cancelled
  cases l.timer
  · rfl
  · rfl

private theorem rank_of_run {before after : List Callback} {c : Callback}
    (here : l.queue = before ++ c :: after) (queue : l'.queue = before ++ after)
    (plain : carries c = false) (running : l'.running = l.running) (client : l'.client = l.client)
    (writes : l'.writes = l.writes) (timer : l'.timer = l.timer)
    (rest : (l'.reading, l'.destroyed, l'.peer) = (l.reading, l.destroyed, l.peer)) :
    rank l' < rank l := by
  obtain ⟨reading, others⟩ := Prod.mk.inj rest
  obtain ⟨destroyed, peer⟩ := Prod.mk.inj others
  refine rank_of_weight ?_ running client ?_
  · rw [here, queue, countP_split, plain]
    rfl
  · simp only [weight, here, queue, writes, timer, reading, destroyed, peer,
      List.length_append, List.length_cons]
    omega

private theorem rank_step (next : LinkStep locations now cache l e cache' l')
    (silent : ∀ data, e ≠ .arrive data) : rank l' < rank l := by
  cases next with
  | expire armed due =>
      refine rank_of_weight (by simp [carries]) rfl rfl ?_
      simp only [weight, armed, List.length_append, List.length_singleton, Option.isSome_some,
        Option.isSome_none, Bool.toNat_true, Bool.toNat_false]
      omega
  | @arrive data => exact absurd rfl (silent data)
  | hangup reading =>
      refine rank_of_weight (by simp [carries]) rfl rfl ?_
      simp only [weight, reading, List.length_append, List.length_singleton, Bool.toNat_true,
        Bool.toNat_false]
      omega
  | reset peer =>
      refine rank_of_weight rfl rfl rfl ?_
      simp only [weight, peer, Bool.toNat_true, Bool.toNat_false]
      omega
  | @send before after piece rest attached here some =>
      have sends := List.length_pos_iff.mpr some
      have pending : ∀ b, cost ⟨b, true⟩ = b.length + 2 := fun b => rfl
      by_cases last : rest = []
      · refine rank_of_weight (by simp [carries, last]) rfl rfl ?_
        simp only [weight, here, cost_split, pending, if_pos last, List.length_append,
          List.length_singleton]
        omega
      · refine rank_of_weight (by simp [last]) rfl rfl ?_
        simp only [weight, here, cost_split, pending, if_neg last, List.length_append,
          List.length_nil]
        omega
  | @lose before after rest here =>
      have pending : cost ⟨rest, true⟩ = rest.length + 2 := rfl
      have lost : cost ⟨rest, false⟩ = 0 := rfl
      refine rank_of_weight (by simp [carries]) rfl rfl ?_
      simp only [weight, here, cost_split, pending, lost, List.length_append,
        List.length_singleton]
      omega
  | received free here parsed =>
      refine rank_of_parsed ?_
      rw [here, countP_split]
      exact Nat.lt_succ_self _
  | failed free here => exact rank_of_run here rfl rfl rfl rfl rfl rfl rfl
  | completed free here => exact rank_of_run here rfl rfl rfl rfl rfl rfl rfl
  | @timeout before after aborted free here =>
      cases aborted with
      | true => exact rank_of_run here rfl rfl rfl rfl rfl rfl rfl
      | false => exact rank_of_run here rfl rfl rfl rfl rfl rfl rfl
  | work running pending =>
      refine rank_of_worked rfl ?_
      simp [running, pending]
  | wait running last =>
      refine rank_of_worked ?_ ?_
      · rw [Link.read, List.countP_append, countP_cancelled _ rfl]
        rfl
      · simp [Link.read, running]
  | destroy unused live =>
      refine rank_of_weight ?_ rfl rfl ?_
      · rw [List.countP_append, countP_cancelled _ rfl]
        rfl
      · simp only [weight, live, cancelled_length, List.length_append, Option.isSome_none,
          Bool.not_false, Bool.not_true, Bool.toNat_true, Bool.toNat_false]
        omega

end Rank

/-- An execution of the server, between any steps of which nothing may happen. -/
structure Execution (locations : Locations) where
  state : Nat → Async
  event : Nat → Option Event
  start : state 0 = .started
  next : ∀ n, (event n = none ∧ state (n + 1) = state n) ∨
    ∃ e, event n = some e ∧ Step locations (state n) e (state (n + 1))

/-- The steps of one session, and its exception. -/
def Execution.moves {locations : Locations} (run : Execution locations) (i : Nat) (n : Nat) :
    Prop :=
  (∃ e, run.event n = some (.link i e)) ∨ run.event n = some (.raise i)

/-- One session can take a step without its peer, or raise an exception. -/
def Execution.able {locations : Locations} (run : Execution locations) (i : Nat) (n : Nat) : Prop :=
  (run.state n).ended = none ∧ ∃ l, (run.state n).links[i]? = some l ∧
    Able locations (run.state n).now (run.state n).cache l

/-- An infinite run: no exception ends the process. -/
structure Run (locations : Locations) extends Execution locations where
  endless : ∀ n, (state n).ended = none

section Runs

variable {locations : Locations} {σ τ : Async} {e : Event} {i : Nat}

theorem links_step {l : Link} (here : σ.links[i]? = some l) (next : Step locations σ e τ) :
    (∃ e' l', e = .link i e' ∧ τ.links[i]? = some l' ∧
      LinkStep locations σ.now σ.cache l e' τ.cache l') ∨
    ((∀ e', e ≠ .link i e') ∧ τ.links[i]? = some l) := by
  obtain ⟨bound, -⟩ := List.getElem?_eq_some_iff.mp here
  cases next with
  | accept =>
      refine .inr ⟨by simp, ?_⟩
      rw [List.getElem?_append_left bound]
      exact here
  | tick => exact .inr ⟨by simp, here⟩
  | raise => exact .inr ⟨by simp, here⟩
  | @link j m l' e cache alive found next =>
      by_cases hj : j = i
      · subst hj
        obtain rfl := Option.some.inj (found.symm.trans here)
        exact .inl ⟨e, l', rfl, List.getElem?_set_self bound, next⟩
      · refine .inr ⟨by simp [hj], ?_⟩
        rw [List.getElem?_set_ne hj]
        exact here

private theorem now_step (next : Step locations σ e τ) : σ.now ≤ τ.now := by
  cases next with
  | accept => exact le_rfl
  | tick => exact Nat.le_add_right _ _
  | link => exact le_rfl
  | raise => exact le_rfl

theorem ended_step (next : Step locations σ e τ) :
    σ.ended = none ∧ (τ.ended = none ∨ ∃ i l, e = .raise i ∧ τ.ended = some i ∧
      σ.links[i]? = some l ∧ Raises locations σ.cache l) := by
  cases next with
  | accept alive => exact ⟨alive, .inl alive⟩
  | tick alive => exact ⟨alive, .inl alive⟩
  | link alive => exact ⟨alive, .inl alive⟩
  | raise alive here raises => exact ⟨alive, .inr ⟨_, _, rfl, rfl, here, raises⟩⟩

namespace Execution

variable (run : Execution locations)

private theorem reachable (n : Nat) : Reachable locations (run.state n) := by
  induction n with
  | zero =>
      rw [run.start]
      exact .start
  | succ n ih =>
      obtain ⟨-, same⟩ | ⟨e, -, next⟩ := run.next n
      · rw [same]
        exact ih
      · exact ih.step next

theorem sound {n : Nat} {l : Link} (here : (run.state n).links[i]? = some l) :
    Sound (run.state n).now l :=
  (run.reachable n).sound l (List.mem_of_getElem? here)

private theorem now_mono {n m : Nat} (later : n ≤ m) : (run.state n).now ≤ (run.state m).now := by
  induction m, later using Nat.le_induction with
  | base => exact le_rfl
  | succ m _ ih =>
      obtain ⟨-, same⟩ | ⟨e, -, next⟩ := run.next m
      · rw [same]
        exact ih
      · exact ih.trans (now_step next)

variable {run}

theorem link_next {n : Nat} {l : Link} (here : (run.state n).links[i]? = some l) :
    (∃ e l', run.event n = some (.link i e) ∧ (run.state (n + 1)).links[i]? = some l' ∧
      LinkStep locations (run.state n).now (run.state n).cache l e (run.state (n + 1)).cache l') ∨
    ((∀ e, run.event n ≠ some (.link i e)) ∧ (run.state (n + 1)).links[i]? = some l) := by
  obtain ⟨rests, same⟩ | ⟨e, event, next⟩ := run.next n
  · refine .inr ⟨by simp [rests], ?_⟩
    rw [same]
    exact here
  · obtain ⟨e', l', rfl, found, step⟩ | ⟨other, found⟩ := links_step here next
    · exact .inl ⟨e', l', event, found, step⟩
    · refine .inr ⟨fun e' own => ?_, found⟩
      exact other e' (Option.some.inj (event.symm.trans own))

theorem connected_later {N : Nat} (connected : i < (run.state N).links.length) {n : Nat}
    (later : N ≤ n) : ∃ l, (run.state n).links[i]? = some l := by
  induction n, later using Nat.le_induction with
  | base => exact ⟨_, List.getElem?_eq_getElem connected⟩
  | succ n _ ih =>
      obtain ⟨l, here⟩ := ih
      obtain ⟨-, l', -, found, -⟩ | ⟨-, found⟩ := link_next here
      · exact ⟨l', found⟩
      · exact ⟨l, found⟩

end Execution

private theorem Run.not_raise (run : Run locations) (n i : Nat) :
    run.event n ≠ some (.raise i) := by
  intro raised
  have ends := run.endless (n + 1)
  obtain ⟨rests, -⟩ | ⟨e, event, next⟩ := run.next n
  · rw [rests] at raised
    cases raised
  · obtain rfl := Option.some.inj (event.symm.trans raised)
    generalize run.state (n + 1) = τ at next ends
    cases next
    cases ends

theorem Run.ends {run : Run locations} {N : Nat} {ended : Link → Prop}
    (connected : i < (run.state N).links.length) (fair : WeaklyFair N (run.able i) (run.moves i))
    (silent : ∀ n l data, N ≤ n → (run.state n).links[i]? = some l → ¬ ended l →
      run.event n ≠ some (.link i (.arrive data)))
    (progress : ∀ n l, N ≤ n → ¬ ended l →
      (∀ m, n ≤ m → (run.state m).links[i]? = some l) →
        ∃ k, n ≤ k ∧ ∀ m, k ≤ m → run.able i m) :
    ∃ n l, N ≤ n ∧ (run.state n).links[i]? = some l ∧ ended l := by
  have ends := @WeaklyFair.ends (Option Link) (Nat ×ₗ Nat ×ₗ Nat)
    (fun n => (run.state n).links[i]?) _ _ N (· < ·) wellFounded_lt
    (fun l => rank (l.getD .accepted)) (fun l => ∃ l', l = some l' ∧ ended l') fair ?_ ?_ ?_
  · obtain ⟨n, later, l, here, done⟩ := ends
    exact ⟨n, l, later, here, done⟩
  · intro n later rests
    obtain ⟨l, here⟩ := Execution.connected_later connected later
    obtain ⟨e, -, own, -⟩ | ⟨-, same⟩ := Execution.link_next here
    · exact absurd (.inl ⟨e, own⟩) rests
    · rw [same, here]
  · intro n later unended moves
    obtain ⟨l, here⟩ := Execution.connected_later connected later
    obtain ⟨e', l', event, found, step⟩ | ⟨other, -⟩ := Execution.link_next here
    · simp only [here, found, Option.getD_some]
      refine rank_step step ?_
      rintro data rfl
      exact silent n l data later here (fun done => unended ⟨l, here, done⟩) event
    · obtain ⟨e, own⟩ | raised := moves
      · exact absurd own (other e)
      · exact absurd raised (run.not_raise n i)
  · intro n later unended rests
    obtain ⟨l, here⟩ := Execution.connected_later connected later
    exact progress n l later (fun done => unended ⟨l, here, done⟩)
      (fun m after => (rests m after).trans here)

end Runs

/-- What makes a session end: it is connected, no more bytes come, time goes on, and what it can do
and has to run is done and returns. -/
structure Abandoned {locations : Locations} (run : Run locations) (i N : Nat) : Prop where
  connected : i < (run.state N).links.length
  silent : ∀ n data, N ≤ n → run.event n ≠ some (.link i (.arrive data))
  time : ∀ t, ∃ n, t ≤ (run.state n).now
  fair : WeaklyFair N (run.able i) (run.moves i)
  returns : ∀ n l, N ≤ n → (run.state n).links[i]? = some l →
    Returns locations (run.state n).cache l

theorem Abandoned.destroyed {locations : Locations} {run : Run locations} {i N : Nat}
    (h : Abandoned run i N) :
    ∃ n l, N ≤ n ∧ (run.state n).links[i]? = some l ∧ l.destroyed = true := by
  refine run.ends h.connected h.fair (fun n l data later _ _ => h.silent n data later) ?_
  -- a session that rests waits for its timer, at most
  intro n l later live rests
  have alive : l.destroyed = false := by simpa using live
  have able : ∀ m, n ≤ m → (∀ t, l.timer = some t → t ≤ (run.state m).now) → run.able i m := by
    intro m after due
    have found := rests m after
    obtain able | ⟨t, armed, early⟩ :=
      able_or_waits (run.sound found) (h.returns m l (by omega) found) alive
    · exact ⟨run.endless m, l, found, able⟩
    · have bound := due t armed
      omega
  cases armed : l.timer with
  | none => exact ⟨n, le_rfl, fun m after => able m after (by simp [armed])⟩
  | some t =>
      obtain ⟨k, due⟩ := h.time t
      refine ⟨max n k, le_max_left n k, ?_⟩
      intro m after
      refine able m (by omega) ?_
      intro t' armed'
      obtain rfl := Option.some.inj (armed.symm.trans armed')
      exact due.trans (run.now_mono (by omega))

/-- In every run in which time goes on, threads go on running the callbacks of a session, and what
they run returns, a session to which no more bytes come is destroyed, and its connection with it:
whatever is left of its writes, and whatever the others do. -/
theorem silent_session_destroyed (locations : Locations) (run : Run locations) (i N : Nat)
    (abandoned : Abandoned run i N) :
    ∃ n l, N ≤ n ∧ (run.state n).links[i]? = some l ∧ l.destroyed = true :=
  abandoned.destroyed

def idleState : Nat → Async
  | 0 => .started
  | 1 => ⟨0, ∅, [Link.accepted.read 0], none⟩
  | 2 => ⟨3000, ∅, [Link.accepted.read 0], none⟩
  | 3 => ⟨3000, ∅, [{ Link.accepted with reading := true, queue := [.timeout false] }], none⟩
  | 4 => ⟨3000, ∅, [{ Link.accepted with reading := true, opened := false }], none⟩
  | 5 => ⟨3000, ∅, [{ Link.accepted with opened := false, queue := [.received none] }], none⟩
  | 6 => ⟨3000, ∅, [{ Link.accepted with opened := false }], none⟩
  | n + 7 => ⟨3000 + n, ∅, [{ Link.accepted with opened := false, destroyed := true }], none⟩

def idleEvent : Nat → Event
  | 0 => .accept
  | 1 => .tick 3000
  | 2 => .link 0 .expire
  | 3 => .link 0 (.run (.timeout false))
  | 4 => .link 0 .hangup
  | 5 => .link 0 (.run (.received none))
  | 6 => .link 0 .destroy
  | _ + 7 => .tick 1

theorem idle_next : ∀ n, Step echoLocations (idleState n) (idleEvent n) (idleState (n + 1))
  | 0 => .accept rfl
  | 1 => .tick rfl 3000
  | 2 => .link (i := 0) rfl rfl (.expire rfl (by decide))
  | 3 => .link (i := 0) rfl rfl (@LinkStep.timeout _ _ _ _ [] [] false rfl rfl)
  | 4 => .link (i := 0) rfl rfl (.hangup rfl)
  | 5 => .link (i := 0) rfl rfl (@LinkStep.failed _ _ _ _ [] [] rfl rfl)
  | 6 => .link (i := 0) rfl rfl (.destroy rfl rfl)
  | _ + 7 => .tick rfl 1

private theorem idle_endless : ∀ n, (idleState n).ended = none
  | 0 | 1 | 2 | 3 | 4 | 5 | 6 | _ + 7 => rfl

def idleRun : Run echoLocations where
  state := idleState
  event n := some (idleEvent n)
  start := rfl
  next n := .inr ⟨_, rfl, idle_next n⟩
  endless := idle_endless

theorem idle_not_able (n : Nat) : ¬ idleRun.able 0 (n + 7) := by
  rintro ⟨-, l, here, able⟩
  obtain rfl := Option.some.inj here
  exact not_able_of_quiet rfl rfl (by simp [Link.accepted]) (.inr ⟨rfl, rfl⟩) (.inr rfl) able

theorem idle_returns {n : Nat} {l : Link} (later : 1 ≤ n)
    (here : (idleState n).links[0]? = some l) :
    Returns echoLocations (idleState n).cache l := by
  have quiet : l.running = false ∧ ∀ data, .received (some data) ∉ l.queue := by
    match n, later with
    | 1, _ | 2, _ | 3, _ | 4, _ | 5, _ | 6, _ | _ + 7, _ =>
      obtain rfl := Option.some.inj here
      exact ⟨rfl, by simp [Link.accepted, Link.read, Link.cancelled]⟩
  refine ⟨fun data queued => absurd queued (quiet.2 data), ?_⟩
  intro d rest running
  rw [quiet.1] at running
  cases running

theorem silent_session_destroyed_idle :
    ∃ n l, 1 ≤ n ∧ (idleRun.state n).links[0]? = some l ∧ l.destroyed = true := by
  refine silent_session_destroyed echoLocations idleRun 0 1 ⟨by decide, ?_, ?_, ?_, ?_⟩
  · intro n data later
    match n, later with
    | 1, _ | 2, _ | 3, _ | 4, _ | 5, _ | 6, _ | _ + 7, _ => simp [idleRun, idleEvent]
  · intro t
    exact ⟨t + 7, by simp [idleRun, idleState]⟩
  · intro n later able
    exact absurd (able (n + 7) (by omega)) (idle_not_able n)
  · intro n l later here
    exact idle_returns later here

end Wnza.Server.Lifetime
