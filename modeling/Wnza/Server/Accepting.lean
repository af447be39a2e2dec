/- GID: Wnza/Server/Accepting
   generality: I
   source: src/server.cc (start_accept, handle_accept), include/connection.h
   digest: The accept loop, its retry timer and the count of connections, under every
     interleaving. -/

import Mathlib.Data.List.Count
import Mathlib.Logic.Relation

set_option autoImplicit false
set_option relaxedAutoImplicit false

namespace Wnza.Server.Accepting

/-- A connection object: of the session that waits in `async_accept`, of a started session, or
of a session whose accept has failed and that is not destroyed yet. -/
inductive Connection
  | waiting | serving | failed
  deriving DecidableEq

/-- How far a call of `start_accept` has come: before its test, before the increment, and before
the connection is made. -/
inductive Phase
  | entered | passed | counted
  deriving DecidableEq

/-- The counter, the connection objects, the pending waits of the retry timer and the calls of
`start_accept` in progress on any thread. -/
structure AcceptState where
  cnt : Int
  connections : List Connection
  timers : Nat
  running : List Phase

/-- The constructor of the server has set the counter and calls `start_accept`. -/
def AcceptState.started : AcceptState := ⟨0, [], 0, [.entered]⟩

/-- One step of any thread.  Destructors run between any two steps of `start_accept`. -/
inductive Step (σ : AcceptState) : AcceptState → Prop
  /-- With too many connections the timer is set; setting it ends earlier waits, and each of
  them calls `start_accept`. -/
  | retry {before after : List Phase} (here : σ.running = before ++ .entered :: after)
      (full : 100 < σ.cnt) :
      Step σ { σ with
        timers := 1
        running := before ++ after ++ List.replicate σ.timers .entered }
  | test {before after : List Phase} (here : σ.running = before ++ .entered :: after)
      (room : ¬ 100 < σ.cnt) : Step σ { σ with running := before ++ .passed :: after }
  | increment {before after : List Phase} (here : σ.running = before ++ .passed :: after) :
      Step σ { σ with cnt := σ.cnt + 1, running := before ++ .counted :: after }
  | asyncAccept {before after : List Phase} (here : σ.running = before ++ .counted :: after) :
      Step σ { σ with
        connections := σ.connections ++ [.waiting]
        running := before ++ after }
  /-- `handle_accept`: the session is started unless there is an error, and `start_accept` is
  called. -/
  | handleAccept {before after : List Connection} (error : Bool)
      (here : σ.connections = before ++ .waiting :: after) :
      Step σ { σ with
        connections := before ++ (if error then .failed else .serving) :: after
        running := σ.running ++ [.entered] }
  | timer {n : Nat} (here : σ.timers = n + 1) :
      Step σ { σ with timers := n, running := σ.running ++ [.entered] }
  /-- The last reference to a session is gone, and its connection is destroyed. -/
  | destroy {before after : List Connection} {c : Connection}
      (here : σ.connections = before ++ c :: after) (ended : c ≠ .waiting) :
      Step σ { σ with cnt := σ.cnt - 1, connections := before ++ after }

def Reachable (σ : AcceptState) : Prop := Relation.ReflTransGen Step .started σ

/-- The accepts that are pending. -/
def AcceptState.accepts (σ : AcceptState) : Nat := σ.connections.count .waiting

/-- The counter is the number of connection objects and of those about to be made; there is one
pending accept, one pending timer or one call of `start_accept`, and no second one. -/
structure Counted (σ : AcceptState) : Prop where
  live : σ.cnt = σ.connections.length + σ.running.count .counted
  capped : σ.cnt ≤ 101
  room : .passed ∈ σ.running → σ.cnt ≤ 100
  single : σ.accepts + σ.timers + σ.running.length = 1

section Invariant

variable {σ τ : AcceptState} {cnt : Int} {connections : List Connection} {timers : Nat}
  {running : List Phase} {p : Phase}

theorem Counted.alone {before after : List Phase}
    (h : Counted ⟨cnt, connections, timers, before ++ p :: after⟩) :
    before = [] ∧ after = [] ∧ timers = 0 := by
  have total := h.single
  simp only [List.length_append, List.length_cons] at total
  refine ⟨?_, ?_, by omega⟩
  · apply List.length_eq_zero_iff.mp
    omega
  · apply List.length_eq_zero_iff.mp
    omega

theorem Counted.idle (h : Counted ⟨cnt, connections, timers, running⟩)
    (pending : 0 < connections.count .waiting + timers) : running = [] := by
  have total := h.single
  simp only [AcceptState.accepts] at total
  apply List.length_eq_zero_iff.mp
  omega

private theorem counted_calling :
    Counted ⟨cnt, connections, 0, [p]⟩ ↔
      cnt = connections.length + [p].count .counted ∧ cnt ≤ 101 ∧ (p = .passed → cnt ≤ 100) ∧
        connections.count .waiting = 0 := by
  constructor
  · intro h
    have single := h.single
    simp only [AcceptState.accepts, List.length_singleton] at single
    exact ⟨h.live, h.capped, fun hp => h.room (by simp [hp]), by omega⟩
  · rintro ⟨live, capped, room, none⟩
    refine ⟨live, capped, ?_, ?_⟩
    · intro passed
      exact room (List.mem_singleton.mp passed).symm
    · simp [AcceptState.accepts, none]

private theorem counted_between :
    Counted ⟨cnt, connections, timers, []⟩ ↔
      cnt = connections.length ∧ cnt ≤ 101 ∧ connections.count .waiting + timers = 1 := by
  constructor
  · intro h
    exact ⟨by simpa using h.live, h.capped, h.single⟩
  · rintro ⟨live, capped, one⟩
    exact ⟨by simpa using live, capped, by simp, one⟩

private theorem Counted.step (h : Counted σ) (step : Step σ τ) : Counted τ := by
  obtain ⟨cnt, connections, timers, running⟩ := σ
  cases step with
  | @retry before after here full =>
      obtain rfl : running = before ++ .entered :: after := here
      obtain ⟨rfl, rfl, rfl⟩ := h.alone
      obtain ⟨live, capped, -, none⟩ := counted_calling.mp h
      have one : connections.count .waiting + 1 = 1 := by omega
      exact counted_between.mpr ⟨by simpa using live, capped, one⟩
  | @test before after here room =>
      obtain rfl : running = before ++ .entered :: after := here
      obtain ⟨rfl, rfl, rfl⟩ := h.alone
      obtain ⟨live, capped, -, none⟩ := counted_calling.mp h
      have below : cnt ≤ 100 := Int.not_lt.mp room
      exact counted_calling.mpr ⟨by simpa using live, capped, fun _ => below, none⟩
  | @increment before after here =>
      obtain rfl : running = before ++ .passed :: after := here
      obtain ⟨rfl, rfl, rfl⟩ := h.alone
      obtain ⟨live, -, room, none⟩ := counted_calling.mp h
      have bound : cnt + 1 ≤ 101 := Int.add_le_add_right (room rfl) 1
      exact counted_calling.mpr ⟨by simpa using live, bound, by simp, none⟩
  | @asyncAccept before after here =>
      obtain rfl : running = before ++ .counted :: after := here
      obtain ⟨rfl, rfl, rfl⟩ := h.alone
      obtain ⟨live, capped, -, none⟩ := counted_calling.mp h
      exact counted_between.mpr ⟨by simpa using live, capped, by simp [none]⟩
  | @handleAccept before after error here =>
      obtain rfl : connections = before ++ .waiting :: after := here
      have waits : (before ++ .waiting :: after).count .waiting =
          before.count .waiting + (after.count .waiting + 1) := by
        rw [List.count_append, List.count_cons_self]
      obtain rfl := h.idle (by omega)
      obtain ⟨live, capped, one⟩ := counted_between.mp h
      have ended : (if error then Connection.failed else .serving) ≠ .waiting := by
        cases error
        · decide
        · decide
      obtain rfl : timers = 0 := by omega
      refine counted_calling.mpr ⟨by simpa using live, capped, by simp, ?_⟩
      rw [List.count_append, List.count_cons_of_ne ended]
      omega
  | @timer n here =>
      obtain rfl : timers = n + 1 := here
      obtain rfl := h.idle (by omega)
      obtain ⟨live, capped, one⟩ := counted_between.mp h
      obtain rfl : n = 0 := by omega
      have none : connections.count .waiting = 0 := by omega
      exact counted_calling.mpr ⟨by simpa using live, capped, by simp, none⟩
  | @destroy before after c here ended =>
      -- the counter and the connections both lose one, in whatever phase `start_accept` is
      obtain rfl : connections = before ++ c :: after := here
      have live := h.live
      have capped := h.capped
      have single := h.single
      simp only [List.length_append, List.length_cons] at live
      simp only [AcceptState.accepts, List.count_append, List.count_cons_of_ne ended] at single
      refine ⟨?_, ?_, ?_, ?_⟩
      · simp only [List.length_append]
        omega
      · simp only at capped ⊢
        omega
      · intro passed
        have room := h.room passed
        simp only at room ⊢
        omega
      · simpa [AcceptState.accepts] using single

theorem Reachable.counted (h : Reachable σ) : Counted σ := by
  induction h with
  | refl => exact ⟨rfl, by decide, by decide, rfl⟩
  | tail _ next ih => exact ih.step next

end Invariant

/-- Whatever the order of the steps, the counter stays between 0 and 101 and is the number of
the live connections up to one that is about to be made.  Between calls of `start_accept` it is
their number, and either one accept is pending or one timer, and not both. -/
theorem connections_counted (σ : AcceptState) (reachable : Reachable σ) :
    0 ≤ σ.cnt ∧ σ.cnt ≤ 101 ∧
      σ.cnt = σ.connections.length + σ.running.count .counted ∧
      σ.accepts + σ.timers + σ.running.length = 1 ∧
      (σ.running = [] →
        σ.cnt = σ.connections.length ∧
          ((σ.accepts = 1 ∧ σ.timers = 0) ∨ (σ.accepts = 0 ∧ σ.timers = 1))) := by
  have counted := reachable.counted
  have live := counted.live
  have single := counted.single
  refine ⟨by omega, counted.capped, live, single, ?_⟩
  intro idle
  rw [idle, List.count_nil] at live
  rw [idle, List.length_nil] at single
  refine ⟨by omega, ?_⟩
  omega

/-- A session runs while the next connection waits in `async_accept`. -/
theorem connections_counted_serving :
    ∃ σ, Reachable σ ∧ σ.connections = [.serving, .waiting] ∧ σ.running = [] ∧
      σ.cnt = σ.connections.length := by
  have entered : Reachable .started := .refl
  have passed : Reachable ⟨0, [], 0, [.passed]⟩ :=
    entered.tail (@Step.test .started [] [] rfl (by decide))
  have counted : Reachable ⟨1, [], 0, [.counted]⟩ := passed.tail (@Step.increment _ [] [] rfl)
  have waiting : Reachable ⟨1, [.waiting], 0, []⟩ := counted.tail (@Step.asyncAccept _ [] [] rfl)
  have accepted : Reachable ⟨1, [.serving], 0, [.entered]⟩ :=
    waiting.tail (@Step.handleAccept _ [] [] false rfl)
  have again : Reachable ⟨1, [.serving], 0, [.passed]⟩ :=
    accepted.tail (@Step.test _ [] [] rfl (by decide))
  have second : Reachable ⟨2, [.serving], 0, [.counted]⟩ :=
    again.tail (@Step.increment _ [] [] rfl)
  have both : Reachable ⟨2, [.serving, .waiting], 0, []⟩ :=
    second.tail (@Step.asyncAccept _ [] [] rfl)
  exact ⟨_, both, rfl, rfl, ((connections_counted _ both).2.2.2.2 rfl).1⟩

end Wnza.Server.Accepting
