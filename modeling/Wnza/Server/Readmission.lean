/- GID: Wnza/Server/Readmission
   generality: I
   source: src/server.cc (start_accept, handle_accept)
   digest: A server that has been full accepts again once a connection is gone. -/

import Wnza.Foundation.Fairness
import Wnza.Server.Accepting

set_option autoImplicit false
set_option relaxedAutoImplicit false

namespace Wnza.Server.Readmission

open Wnza.Foundation.Fairness
open Wnza.Server.Accepting

/-- The steps that a call of `start_accept` has still to take until an accept is pending. -/
def remaining : Phase → Nat
  | .entered => 3
  | .passed => 2
  | .counted => 1

def stage (σ : AcceptState) : Nat :=
  σ.running.foldr (fun p n => remaining p + n) (4 * σ.timers)

def Roomy (σ : AcceptState) : Prop := 3 ≤ stage σ → σ.cnt ≤ 100

/-- An infinite run of the accept loop, between any steps of which nothing may happen. -/
structure Run where
  state : Nat → AcceptState
  start : state 0 = .started
  next : ∀ n, state (n + 1) = state n ∨ Step (state n) (state (n + 1))

section Steps

variable {σ τ : AcceptState}

private theorem stage_eq_zero_iff (h : Counted σ) : stage σ = 0 ↔ σ.accepts = 1 := by
  have single := h.single
  obtain ⟨cnt, connections, timers, running⟩ := σ
  cases running with
  | nil =>
      simp only [stage, List.foldr_nil, List.length_nil] at single ⊢
      omega
  | cons p rest =>
      have positive : 0 < remaining p := by cases p <;> decide
      simp only [stage, List.foldr_cons, List.length_cons] at single ⊢
      omega

private theorem stage_step (h : Counted σ) (roomy : Roomy σ) (busy : stage σ ≠ 0)
    (step : Step σ τ) :
    (stage τ = stage σ ∨ stage τ < stage σ) ∧ Roomy τ := by
  obtain ⟨cnt, connections, timers, running⟩ := σ
  cases step with
  | @retry before after here full =>
      obtain rfl : running = before ++ .entered :: after := here
      obtain ⟨rfl, rfl, rfl⟩ := h.alone
      have room := roomy (by simp [stage, remaining])
      exact absurd full (by omega)
  | @test before after here room =>
      obtain rfl : running = before ++ .entered :: after := here
      obtain ⟨rfl, rfl, rfl⟩ := h.alone
      exact ⟨.inr (by simp [stage, remaining]), by simp [Roomy, stage, remaining]⟩
  | @increment before after here =>
      obtain rfl : running = before ++ .passed :: after := here
      obtain ⟨rfl, rfl, rfl⟩ := h.alone
      exact ⟨.inr (by simp [stage, remaining]), by simp [Roomy, stage, remaining]⟩
  | @asyncAccept before after here =>
      obtain rfl : running = before ++ .counted :: after := here
      obtain ⟨rfl, rfl, rfl⟩ := h.alone
      exact ⟨.inr (by simp [stage, remaining]), by simp [Roomy, stage]⟩
  | @handleAccept before after error here =>
      obtain rfl : connections = before ++ .waiting :: after := here
      have waits : 0 < (before ++ .waiting :: after).count Connection.waiting :=
        List.count_pos_iff.mpr (by simp)
      have single := h.single
      simp only [AcceptState.accepts] at single
      have pending : (before ++ .waiting :: after).count Connection.waiting = 1 := by omega
      exact absurd ((stage_eq_zero_iff h).mpr pending) busy
  | @timer n here =>
      obtain rfl : timers = n + 1 := here
      obtain rfl := h.idle (by omega)
      have single := h.single
      obtain rfl : n = 0 := by
        simp only [AcceptState.accepts, List.length_nil] at single
        omega
      refine ⟨.inr (by simp [stage, remaining]), ?_⟩
      intro _
      exact roomy (by simp [stage])
  | @destroy before after c here ended =>
      refine ⟨.inl rfl, ?_⟩
      intro far
      have room := roomy far
      simp only at room ⊢
      omega

end Steps

section Runs

variable (run : Run)

theorem Run.reachable (n : Nat) : Reachable (run.state n) := by
  induction n with
  | zero =>
      rw [run.start]
      exact .refl
  | succ n ih =>
      obtain same | step := run.next n
      · rw [same]
        exact ih
      · exact ih.tail step

variable {run}

private theorem Run.roomy {N : Nat} (room : (run.state N).cnt ≤ 100)
    (busy : ∀ n, N ≤ n → stage (run.state n) ≠ 0) {n : Nat} (later : N ≤ n) :
    Roomy (run.state n) := by
  induction n, later using Nat.le_induction with
  | base => exact fun _ => room
  | succ n later ih =>
      obtain same | step := run.next n
      · rw [same]
        exact ih
      · exact (stage_step (run.reachable n).counted ih (busy n later) step).2

end Runs

/-- The loop goes on as long as no accept is pending. -/
def Run.Fair (run : Run) (N : Nat) : Prop :=
  WeaklyFair N (fun n => (run.state n).accepts = 0)
    (fun n => stage (run.state (n + 1)) ≠ stage (run.state n))

theorem Run.Fair.accepts {run : Run} {N : Nat} (fair : run.Fair N)
    (room : (run.state N).cnt ≤ 100) : ∃ n, N ≤ n ∧ (run.state n).accepts = 1 := by
  by_contra never
  have busy : ∀ n, N ≤ n → stage (run.state n) ≠ 0 := by
    intro n later rests
    exact never ⟨n, later, (stage_eq_zero_iff (run.reachable n).counted).mp rests⟩
  have ends := @WeaklyFair.ends Nat Nat (fun n => stage (run.state n)) _ _ N (· < ·)
    wellFounded_lt id (· = 0) fair ?_ ?_ ?_
  · obtain ⟨n, later, rests⟩ := ends
    exact busy n later rests
  · intro n later rests
    exact not_not.mp rests
  · intro n later _ moves
    obtain same | step := run.next n
    · exact absurd (congrArg stage same) moves
    · have counted := (run.reachable n).counted
      obtain same | lower :=
        (stage_step counted (Run.roomy room busy later) (busy n later) step).1
      · exact absurd same moves
      · exact lower
  · intro n later _ _
    refine ⟨n, le_rfl, fun m after => ?_⟩
    have single := (run.reachable m).counted.single
    have none : (run.state m).accepts ≠ 1 := fun pending => never ⟨m, by omega, pending⟩
    omega

/-- In every run of the accept loop that goes on as long as no accept is pending: at any time at
which at most 100 connections are counted, an accept is pending or will be.  So a server that was
full accepts again when a session has ended, whatever other sessions do. -/
theorem accepting_resumes (run : Run) (N : Nat) (fair : run.Fair N)
    (room : (run.state N).cnt ≤ 100) : ∃ n, N ≤ n ∧ (run.state n).accepts = 1 :=
  fair.accepts room

/-- A call of `start_accept` that finds `k` sessions and leaves an accept pending. -/
def calling (k : Nat) : Nat → AcceptState
  | 0 => ⟨k, List.replicate k .serving, 0, [.entered]⟩
  | 1 => ⟨k, List.replicate k .serving, 0, [.passed]⟩
  | 2 => ⟨k + 1, List.replicate k .serving, 0, [.counted]⟩
  | _ + 3 => ⟨k + 1, List.replicate k .serving ++ [.waiting], 0, []⟩

def fullState (n : Nat) : AcceptState :=
  if n ≤ 404 then calling (n / 4) (n % 4)
  else
    match n - 405 with
    | 0 => ⟨101, List.replicate 101 .serving, 1, []⟩
    | 1 => ⟨100, List.replicate 100 .serving, 1, []⟩
    | j + 2 => calling 100 j

private theorem calling_next {k : Nat} (room : k ≤ 100) :
    ∀ j, calling k (j + 1) = calling k j ∨ Step (calling k j) (calling k (j + 1))
  | 0 => .inr (@Step.test (calling k 0) [] [] rfl (by simp only [calling]; omega))
  | 1 => .inr (@Step.increment _ [] [] rfl)
  | 2 => .inr (@Step.asyncAccept _ [] [] rfl)
  | _ + 3 => .inl rfl

private theorem calling_again (k : Nat) : Step (calling k 3) (calling (k + 1) 0) := by
  have next := @Step.handleAccept (calling k 3) (List.replicate k .serving) [] false rfl
  have more : List.replicate (k + 1) Connection.serving = List.replicate k .serving ++ [.serving] :=
    List.replicate_succ'
  simpa [calling, more] using next

private theorem full_next (n : Nat) :
    fullState (n + 1) = fullState n ∨ Step (fullState n) (fullState (n + 1)) := by
  by_cases filling : n + 1 ≤ 404
  · have before : n ≤ 404 := by omega
    simp only [fullState, if_pos filling, if_pos before]
    by_cases last : n % 4 = 3
    · have quotient : (n + 1) / 4 = n / 4 + 1 := by omega
      have rest : (n + 1) % 4 = 0 := by omega
      rw [quotient, rest, last]
      exact .inr (calling_again _)
    · have quotient : (n + 1) / 4 = n / 4 := by omega
      have rest : (n + 1) % 4 = n % 4 + 1 := by omega
      rw [quotient, rest]
      exact calling_next (by omega) _
  · obtain ⟨m, rfl⟩ : ∃ m, n = m + 404 := ⟨n - 404, by omega⟩
    match m with
    | 0 => exact .inr (@Step.retry (calling 101 0) [] [] rfl (by decide))
    | 1 => exact .inr (@Step.destroy _ [] (List.replicate 100 .serving) .serving rfl (by decide))
    | 2 => exact .inr (.timer rfl)
    | j + 3 =>
        have here : fullState (j + 3 + 404) = calling 100 j := by simp [fullState]
        have there : fullState (j + 3 + 404 + 1) = calling 100 (j + 1) := by simp [fullState]
        rw [here, there]
        exact calling_next (by omega) j

def fullRun : Run := ⟨fullState, rfl, full_next⟩

theorem accepting_resumes_full :
    (fullRun.state 405).cnt = 101 ∧ (fullRun.state 406).cnt = 100 ∧
      ∃ n, 406 ≤ n ∧ (fullRun.state n).accepts = 1 := by
  have fair : fullRun.Fair 406 := by
    intro n later idle
    have waits := idle (n + 410) (by omega)
    have here : fullRun.state (n + 410) = calling 100 (n + 3) := by simp [fullRun, fullState]
    simp only [here] at waits
    simp [calling, AcceptState.accepts] at waits
  exact ⟨rfl, rfl, accepting_resumes fullRun 406 fair (by decide)⟩

end Wnza.Server.Readmission
