/- GID: Wnza/Server/Admission
   generality: I
   source: src/server.cc, src/session.cc, src/connection.cc, include/connection.h
   digest: The accept loop and the sessions together: how many there are, and that a full server
     accepts again. -/

import Wnza.Server.Lifetime
import Wnza.Server.Readmission

set_option autoImplicit false
set_option relaxedAutoImplicit false

namespace Wnza.Server.Admission

open Wnza.Foundation.Fairness
open Wnza.Handler.Basic
open Wnza.Session.Dispatch
open Wnza.Server.Accepting
open Wnza.Server.Strand (Async Link LinkEvent LinkStep)

/-- The accept loop, with its counter, and the sessions. -/
structure System where
  accepting : AcceptState
  async : Async

def System.started : System := ⟨.started, .started⟩

def serving (α : AcceptState) : Nat := α.connections.count .serving

/-- The sessions that are not destroyed. -/
def live (σ : Async) : Nat := σ.links.countP (fun l => !l.destroyed)

/-- One step of the server, with what it is for the sessions. -/
inductive Step (locations : Locations) (σ : System) : Strand.Event → System → Prop
  /-- The accept loop goes on, or a connection that was never started is destroyed. -/
  | loop {α : AcceptState} (alive : σ.async.ended = none)
      (next : Accepting.Step σ.accepting α) (same : serving α = serving σ.accepting) :
      Step locations σ (.tick 0) ⟨α, σ.async⟩
  /-- `handle_accept` without an error starts a session. -/
  | connect {α : AcceptState} {τ : Async} (next : Accepting.Step σ.accepting α)
      (more : serving α = serving σ.accepting + 1)
      (starts : Strand.Step locations σ.async .accept τ) : Step locations σ .accept ⟨α, τ⟩
  /-- A session is destroyed, and the destructor of its connection counts down. -/
  | finish {α : AcceptState} {τ : Async} {i : Nat} (next : Accepting.Step σ.accepting α)
      (fewer : serving α + 1 = serving σ.accepting)
      (ends : Strand.Step locations σ.async (.link i .destroy) τ) :
      Step locations σ (.link i .destroy) ⟨α, τ⟩
  | session {τ : Async} {e : Strand.Event} (next : Strand.Step locations σ.async e τ)
      (goes : e ≠ .accept) (lives : ∀ i, e ≠ .link i .destroy) :
      Step locations σ e ⟨σ.accepting, τ⟩

inductive Reachable (locations : Locations) : System → Prop
  | start : Reachable locations .started
  | step {σ τ : System} {e : Strand.Event} (before : Reachable locations σ)
      (next : Step locations σ e τ) : Reachable locations τ

section Steps

variable {locations : Locations} {σ τ : System} {e : Strand.Event} {α β : AcceptState}

private theorem Step.accepting (step : Step locations σ e τ) :
    τ.accepting = σ.accepting ∨ Accepting.Step σ.accepting τ.accepting := by
  cases step with
  | loop _ next => exact .inr next
  | connect next => exact .inr next
  | finish next => exact .inr next
  | session => exact .inl rfl

private theorem Step.async (step : Step locations σ e τ) :
    Strand.Step locations σ.async e τ.async := by
  cases step with
  | loop alive => exact .tick alive 0
  | connect _ _ starts => exact starts
  | finish _ _ ends => exact ends
  | session next => exact next

private theorem Reachable.accepting (h : Reachable locations σ) :
    Accepting.Reachable σ.accepting := by
  induction h with
  | start => exact .refl
  | step _ next ih =>
      obtain same | step := next.accepting
      · rw [same]
        exact ih
      · exact ih.tail step

private theorem cnt_of_fewer (step : Accepting.Step α β) (fewer : serving β + 1 = serving α) :
    β.cnt = α.cnt - 1 := by
  cases step with
  | retry => exact absurd fewer (by simp [serving])
  | test => exact absurd fewer (by simp [serving])
  | increment => exact absurd fewer (by simp [serving])
  | asyncAccept => exact absurd fewer (by simp [serving])
  | @handleAccept before after error here =>
      cases error with
      | true => simp [serving, here] at fewer
      | false =>
          simp [serving, here] at fewer
          omega
  | timer => exact absurd fewer (by simp [serving])
  | destroy => rfl

private theorem destroyed_linkStep {now : Nat} {cache cache' : Cache} {l l' : Link} {e : LinkEvent}
    (next : LinkStep locations now cache l e cache' l') :
    (e = .destroy ∧ l.destroyed = false ∧ l'.destroyed = true) ∨ l'.destroyed = l.destroyed := by
  cases next with
  | destroy _ live => exact .inl ⟨rfl, live, rfl⟩
  | @timeout _ _ aborted =>
      right
      cases aborted
      · rfl
      · rfl
  | _ => exact .inr rfl

private theorem live_set {links : List Link} {i : Nat} {l : Link} (l' : Link)
    (here : links[i]? = some l) :
    (links.set i l').countP (fun l => !l.destroyed) + (!l.destroyed).toNat =
      links.countP (fun l => !l.destroyed) + (!l'.destroyed).toNat := by
  obtain ⟨before, after, rfl, rfl⟩ : ∃ before after, links = before ++ l :: after ∧
      i = before.length := by
    obtain ⟨bound, found⟩ := List.getElem?_eq_some_iff.mp here
    refine ⟨links.take i, links.drop (i + 1), ?_, by simp; omega⟩
    rw [← found, List.getElem_cons_drop, List.take_append_drop]
  have split : (before ++ l :: after).set before.length l' = before ++ l' :: after := by simp
  rw [split, Strand.countP_split, Strand.countP_split]
  omega

private theorem live_step (step : Step locations σ e τ) (h : serving σ.accepting = live σ.async) :
    serving τ.accepting = live τ.async := by
  cases step with
  | loop _ _ same => rw [same, h]
  | connect _ more starts =>
      cases starts
      have fresh : (!(Link.accepted.read σ.async.now).destroyed) = true := rfl
      rw [more, h, live, live, List.countP_append, List.countP_singleton, if_pos fresh]
  | @finish _ _ i _ fewer ends =>
      cases ends with
      | @link _ l l' _ cache alive here next =>
          have count := live_set l' here
          obtain ⟨-, before, after⟩ | same := destroyed_linkStep next
          · rw [before, after] at count
            simp only [Bool.not_false, Bool.not_true, Bool.toNat_true, Bool.toNat_false] at count
            simp only [live] at h ⊢
            omega
          · cases next with
            | destroy _ alive => simp [alive] at same
  | session next goes lives =>
      cases next with
      | accept => exact absurd rfl goes
      | tick => exact h
      | raise => exact h
      | @link i l l' e cache alive here next =>
          have count := live_set l' here
          obtain ⟨rfl, -, -⟩ | same := destroyed_linkStep next
          · exact absurd rfl (lives i)
          · rw [same] at count
            simp only [live] at h ⊢
            omega

private theorem length_eq_counts (connections : List Connection) :
    connections.length = connections.count .serving + connections.count .waiting +
      connections.count .failed := by
  induction connections with
  | nil => rfl
  | cons c connections ih =>
      cases c <;> simp [ih] <;> omega

private theorem Reachable.live_eq (h : Reachable locations σ) :
    serving σ.accepting = live σ.async := by
  induction h with
  | start => rfl
  | step _ next ih => exact live_step next ih

end Steps

/-- In every state of the whole server, whatever the order of the steps of the accept loop, of the
sessions and of the destructors: the counter counts the sessions that live, the accept that is
pending and the connections about to be made or never started, and it is at most 101. -/
theorem sessions_bounded (locations : Locations) (σ : System) (reachable : Reachable locations σ) :
    (live σ.async : Int) + σ.accepting.accepts + σ.accepting.connections.count .failed +
        σ.accepting.running.count .counted = σ.accepting.cnt ∧
      σ.accepting.cnt ≤ 101 ∧ live σ.async + σ.accepting.accepts ≤ 101 := by
  have counted := reachable.accepting.counted
  have lives := reachable.live_eq
  have kinds : σ.accepting.connections.length =
      serving σ.accepting + σ.accepting.accepts + σ.accepting.connections.count .failed :=
    length_eq_counts _
  have total := counted.live
  have capped := counted.capped
  refine ⟨?_, capped, ?_⟩
  · omega
  · omega

/-- One session lives while the next accept is pending. -/
theorem sessions_bounded_one :
    ∃ σ, Reachable echoLocations σ ∧ live σ.async = 1 ∧ σ.accepting.accepts = 1 ∧
      σ.accepting.cnt = 2 := by
  have tested : Reachable echoLocations _ :=
    .step .start (.loop rfl (@Accepting.Step.test .started [] [] rfl (by decide)) rfl)
  have counted := tested.step (.loop rfl (@Accepting.Step.increment _ [] [] rfl) rfl)
  have waiting := counted.step (.loop rfl (@Accepting.Step.asyncAccept _ [] [] rfl) rfl)
  have accepted := waiting.step
    (.connect (@Accepting.Step.handleAccept _ [] [] false rfl) rfl (.accept rfl))
  have again := accepted.step (.loop rfl (@Accepting.Step.test _ [] [] rfl (by decide)) rfl)
  have second := again.step (.loop rfl (@Accepting.Step.increment _ [] [] rfl) rfl)
  have both := second.step (.loop rfl (@Accepting.Step.asyncAccept _ [] [] rfl) rfl)
  exact ⟨_, both, rfl, rfl, (sessions_bounded _ _ both).1.symm⟩

/-- An infinite run of the whole server. -/
structure Run (locations : Locations) where
  state : Nat → System
  event : Nat → Strand.Event
  start : state 0 = .started
  next : ∀ n, Step locations (state n) (event n) (state (n + 1))

namespace Run

variable {locations : Locations} (run : Run locations)

/-- The sessions in a run of the server. -/
def sessions : Lifetime.Run locations where
  state n := (run.state n).async
  event n := some (run.event n)
  start := congrArg System.async run.start
  next n := .inr ⟨_, rfl, (run.next n).async⟩
  endless n := (Lifetime.ended_step (run.next n).async).1

/-- The accept loop in a run of the server. -/
def loop : Readmission.Run where
  state n := (run.state n).accepting
  start := congrArg System.accepting run.start
  next n := (run.next n).accepting

variable {run} {i N : Nat}

private theorem cnt_of_destroyed {n : Nat} {l : Link}
    (here : (run.state n).async.links[i]? = some l) (alive : l.destroyed = false)
    (gone : ∃ l', (run.state (n + 1)).async.links[i]? = some l' ∧ l'.destroyed = true) :
    (run.state (n + 1)).accepting.cnt = (run.state n).accepting.cnt - 1 := by
  obtain ⟨l', found, destroyed⟩ := gone
  have step := run.next n
  have event : run.event n = .link i .destroy := by
    obtain ⟨e, l'', event, found', next⟩ | ⟨-, same⟩ := Lifetime.links_step here step.async
    · obtain rfl := Option.some.inj (found.symm.trans found')
      obtain ⟨rfl, -, -⟩ | same := destroyed_linkStep next
      · exact event
      · rw [same, alive] at destroyed
        cases destroyed
    · obtain rfl := Option.some.inj (found.symm.trans same)
      rw [alive] at destroyed
      cases destroyed
  rw [event] at step
  generalize run.state (n + 1) = τ at step ⊢
  cases step with
  | finish next fewer => exact cnt_of_fewer next fewer
  | session _ _ lives => exact absurd rfl (lives i)

end Run

/-- The accept loop and a session that has fallen silent, on a server that goes on: one step
destroys the session and counts its connection down, and an accept is pending afterwards, also if
the server was full. -/
theorem silent_session_readmits (locations : Locations) (run : Run locations) (i N : Nat)
    (abandoned : Lifetime.Abandoned run.sessions i N)
    (alive : ∀ l, (run.state N).async.links[i]? = some l → l.destroyed = false)
    (fair : run.loop.Fair N) :
    ∃ n l l', N ≤ n ∧ (run.state n).async.links[i]? = some l ∧ l.destroyed = false ∧
      (run.state (n + 1)).async.links[i]? = some l' ∧ l'.destroyed = true ∧
      (run.state (n + 1)).accepting.cnt = (run.state n).accepting.cnt - 1 ∧
      ∃ m, n < m ∧ (run.state m).accepting.accepts = 1 := by
  obtain ⟨n, l, later, found, destroyed⟩ := abandoned.destroyed
  have begins : ¬ ∃ l, (run.state N).async.links[i]? = some l ∧ l.destroyed = true := by
    rintro ⟨l, here, gone⟩
    rw [alive l here] at gone
    cases gone
  obtain ⟨m, after, before, ⟨l', found', gone⟩⟩ := exists_change
    (P := fun n => ∃ l, (run.state n).async.links[i]? = some l ∧ l.destroyed = true)
    begins later ⟨l, found, destroyed⟩
  obtain ⟨l, here⟩ := Lifetime.Execution.connected_later abandoned.connected after
  have lives : l.destroyed = false := by
    cases destroyed : l.destroyed with
    | false => rfl
    | true => exact absurd ⟨l, here, destroyed⟩ before
  have counted := Run.cnt_of_destroyed here lives ⟨l', found', gone⟩
  have capped := (run.loop.reachable m).counted.capped
  have room : (run.loop.state (m + 1)).cnt ≤ 100 := by
    have same : (run.loop.state m).cnt = (run.state m).accepting.cnt := rfl
    have next : (run.loop.state (m + 1)).cnt = (run.state (m + 1)).accepting.cnt := rfl
    omega
  obtain ⟨k, pending, waits⟩ := Readmission.Run.Fair.accepts (fair.later (by omega)) room
  exact ⟨m, l, l', after, here, lives, found', gone, counted, k, pending, waits⟩

section Idle

open Lifetime (idleState idleEvent)

def idleSystem : Nat → System
  | 0 => .started
  | 1 => ⟨⟨0, [], 0, [.passed]⟩, .started⟩
  | 2 => ⟨⟨1, [], 0, [.counted]⟩, .started⟩
  | 3 => ⟨⟨1, [.waiting], 0, []⟩, .started⟩
  | 4 => ⟨⟨1, [.serving], 0, [.entered]⟩, idleState 1⟩
  | 5 => ⟨⟨1, [.serving], 0, [.passed]⟩, idleState 1⟩
  | 6 => ⟨⟨2, [.serving], 0, [.counted]⟩, idleState 1⟩
  | 7 => ⟨⟨2, [.serving, .waiting], 0, []⟩, idleState 1⟩
  | 8 => ⟨⟨2, [.serving, .waiting], 0, []⟩, idleState 2⟩
  | 9 => ⟨⟨2, [.serving, .waiting], 0, []⟩, idleState 3⟩
  | 10 => ⟨⟨2, [.serving, .waiting], 0, []⟩, idleState 4⟩
  | 11 => ⟨⟨2, [.serving, .waiting], 0, []⟩, idleState 5⟩
  | 12 => ⟨⟨2, [.serving, .waiting], 0, []⟩, idleState 6⟩
  | n + 13 => ⟨⟨1, [.waiting], 0, []⟩, idleState (n + 7)⟩

def idleSteps : Nat → Strand.Event
  | 0 | 1 | 2 => .tick 0
  | 3 => .accept
  | 4 | 5 | 6 => .tick 0
  | n + 7 => idleEvent (n + 1)

private theorem idleSystem_next :
    ∀ n, Step echoLocations (idleSystem n) (idleSteps n) (idleSystem (n + 1))
  | 0 => .loop rfl (@Accepting.Step.test .started [] [] rfl (by decide)) rfl
  | 1 => .loop rfl (@Accepting.Step.increment _ [] [] rfl) rfl
  | 2 => .loop rfl (@Accepting.Step.asyncAccept _ [] [] rfl) rfl
  | 3 => .connect (@Accepting.Step.handleAccept _ [] [] false rfl) rfl (.accept rfl)
  | 4 => .loop rfl (@Accepting.Step.test _ [] [] rfl (by decide)) rfl
  | 5 => .loop rfl (@Accepting.Step.increment _ [] [] rfl) rfl
  | 6 => .loop rfl (@Accepting.Step.asyncAccept _ [] [] rfl) rfl
  | 7 => .session (Lifetime.idle_next 1) (by simp [idleSteps, idleEvent])
      (by simp [idleSteps, idleEvent])
  | 8 => .session (Lifetime.idle_next 2) (by simp [idleSteps, idleEvent])
      (by simp [idleSteps, idleEvent])
  | 9 => .session (Lifetime.idle_next 3) (by simp [idleSteps, idleEvent])
      (by simp [idleSteps, idleEvent])
  | 10 => .session (Lifetime.idle_next 4) (by simp [idleSteps, idleEvent])
      (by simp [idleSteps, idleEvent])
  | 11 => .session (Lifetime.idle_next 5) (by simp [idleSteps, idleEvent])
      (by simp [idleSteps, idleEvent])
  | 12 => .finish (@Accepting.Step.destroy _ [] [.waiting] .serving rfl (by decide)) rfl
      (Lifetime.idle_next 6)
  | n + 13 => .session (Lifetime.idle_next (n + 7)) (by simp [idleSteps, idleEvent])
      (by simp [idleSteps, idleEvent])

def idleRun : Run echoLocations := ⟨idleSystem, idleSteps, rfl, idleSystem_next⟩

private theorem idleSystem_async {n : Nat} (later : 4 ≤ n) :
    ∃ k, 1 ≤ k ∧ (idleSystem n).async = idleState k := by
  match n, later with
  | 4, _ | 5, _ | 6, _ | 7, _ => exact ⟨1, le_rfl, rfl⟩
  | 8, _ => exact ⟨2, by omega, rfl⟩
  | 9, _ => exact ⟨3, by omega, rfl⟩
  | 10, _ => exact ⟨4, by omega, rfl⟩
  | 11, _ => exact ⟨5, by omega, rfl⟩
  | 12, _ => exact ⟨6, by omega, rfl⟩
  | n + 13, _ => exact ⟨n + 7, by omega, rfl⟩

private theorem idle_abandoned : Lifetime.Abandoned idleRun.sessions 0 4 where
  connected := by decide
  silent n data later := by
    match n, later with
    | 4, _ | 5, _ | 6, _ | 7, _ | 8, _ | 9, _ | 10, _ | 11, _ | 12, _ | _ + 13, _ =>
      simp [idleRun, Run.sessions, idleSteps, idleEvent]
  time t := ⟨t + 13, by simp [idleRun, Run.sessions, idleSystem, idleState]⟩
  fair n _ able := absurd (able (n + 13) (by omega)) (Lifetime.idle_not_able n)
  returns n l later here := by
    obtain ⟨k, positive, same⟩ := idleSystem_async later
    have state : idleRun.sessions.state n = idleState k := same
    rw [state] at here ⊢
    exact Lifetime.idle_returns positive here

theorem silent_session_readmits_idle :
    ∃ n l l', 4 ≤ n ∧ (idleRun.state n).async.links[0]? = some l ∧ l.destroyed = false ∧
      (idleRun.state (n + 1)).async.links[0]? = some l' ∧ l'.destroyed = true ∧
      (idleRun.state (n + 1)).accepting.cnt = (idleRun.state n).accepting.cnt - 1 ∧
      ∃ m, n < m ∧ (idleRun.state m).accepting.accepts = 1 := by
  refine silent_session_readmits echoLocations idleRun 0 4 idle_abandoned ?_ ?_
  · intro l here
    obtain rfl := Option.some.inj here
    rfl
  · intro n _ idle
    have waits := idle (n + 13) (by omega)
    simp [idleRun, Run.loop, idleSystem, AcceptState.accepts] at waits

end Idle

end Wnza.Server.Admission
