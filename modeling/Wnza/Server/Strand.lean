/- GID: Wnza/Server/Strand
   generality: I
   source: include/connection.h, src/connection.cc, src/session.cc, src/server.cc (handle_accept)
   digest: Sessions as their callbacks, with timers, sockets and references. -/

import Mathlib.Data.List.Count
import Wnza.Server.Writes

set_option autoImplicit false
set_option relaxedAutoImplicit false

namespace Wnza.Server.Strand

open Wnza.Foundation.DoWhile (Ends)
open Wnza.Http.Text
open Wnza.Handler.Basic
open Wnza.Session.Dispatch
open Wnza.Session.Receive
open Wnza.Server.Steps (ServerState Client Answer)
open Wnza.Server.Writes (responseBytes Wire)

/-- A callback that waits for the strand of its connection: `received_req` with the bytes of a read
or with an error, `completed_request`, and `timeout` with or without an error. -/
inductive Callback
  | received (data : Option Bytes)
  | completed
  | timeout (aborted : Bool)
  deriving DecidableEq

/-- The callbacks of reads and writes are bound to a `shared_ptr` of their session, the one of the
timer to a plain pointer. -/
def Callback.holds : Callback → Bool
  | .timeout _ => false
  | _ => true

def Callback.isReceived : Callback → Bool
  | .received _ => true
  | _ => false

/-- An `async_write`: the bytes it has not sent, and whether its callback is still to come. -/
structure Write where
  rest : Bytes
  pending : Bool

/-- A session with its connection: whether the socket is open and has its peer, the time at which
the pending wait of the timer is over, the pending `async_read_some`, whether `received_req` is
running, and the callbacks that wait for the strand. -/
structure Link where
  client : Client
  requests : List Delivery
  writes : List Write
  sent : Bytes
  opened : Bool
  peer : Bool
  timer : Option Nat
  reading : Bool
  running : Bool
  queue : List Callback
  destroyed : Bool

def Link.accepted : Link := ⟨.connected, [], [], [], true, true, none, false, false, [], false⟩

/-- `remote_endpoint` returns: the socket is open, and its peer has not reset the connection. -/
def Link.Attached (l : Link) : Prop := l.opened = true ∧ l.peer = true

def Link.cancelled (l : Link) : List Callback := if l.timer.isSome then [.timeout true] else []

/-- `tcp_connection::read`, at a time in milliseconds.  Setting the timer cancels its pending
wait, but not a callback that is on its way. -/
def Link.read (l : Link) (now : Nat) : Link :=
  { l with
    queue := l.queue ++ l.cancelled
    timer := some (now + 3000)
    reading := true }

/-- `tcp_connection::timeout`. -/
def Link.timeout (l : Link) (aborted : Bool) : Link :=
  if aborted then l else { l with opened := false }

/-- The references to a session: its operations, its callbacks and `received_req`. -/
def Link.references (l : Link) : Nat :=
  l.queue.countP Callback.holds + l.writes.countP Write.pending +
    l.reading.toNat + l.running.toNat

inductive LinkEvent
  | expire
  | arrive (data : Bytes)
  | hangup
  | reset
  | send
  | lose
  | run (c : Callback)
  | work (w : World)
  | wait
  | destroy

/-- One step of a session.  The callbacks of a strand run one at a time, in any order, and time may
pass between any two steps. -/
inductive LinkStep (locations : Locations) (now : Nat) (cache : Cache) (l : Link) :
    LinkEvent → Cache → Link → Prop
  | expire {t : Nat} (armed : l.timer = some t) (due : t ≤ now) :
      LinkStep locations now cache l .expire cache
        { l with timer := none, queue := l.queue ++ [.timeout false] }
  | arrive {data : Bytes} (reading : l.reading = true) (opened : l.opened = true)
      (some : data ≠ []) (size : data.length ≤ 8192) :
      LinkStep locations now cache l (.arrive data) cache
        { l with reading := false, queue := l.queue ++ [.received (.some data)] }
  /-- The peer has closed the connection, or the socket is closed. -/
  | hangup (reading : l.reading = true) :
      LinkStep locations now cache l .hangup cache
        { l with reading := false, queue := l.queue ++ [.received none] }
  | reset (peer : l.peer = true) :
      LinkStep locations now cache l .reset cache { l with peer := false }
  | send {before after : List Write} {piece rest : Bytes} (attached : l.Attached)
      (here : l.writes = before ++ ⟨piece ++ rest, true⟩ :: after) (some : piece ≠ []) :
      LinkStep locations now cache l .send cache
        { l with
          writes := before ++ (if rest = [] then after else ⟨rest, true⟩ :: after)
          queue := l.queue ++ (if rest = [] then [.completed] else [])
          sent := l.sent ++ piece }
  /-- A write fails, and what it has not sent is lost. -/
  | lose {before after : List Write} {rest : Bytes}
      (here : l.writes = before ++ ⟨rest, true⟩ :: after) :
      LinkStep locations now cache l .lose cache
        { l with
          writes := before ++ ⟨rest, false⟩ :: after
          queue := l.queue ++ [.completed] }
  /-- `received_req` parses the data and goes on with `thread_work`. -/
  | received {before after : List Callback} {data : Bytes} {out reports : List Delivery}
      {t : Http.Parser.Parsing} (free : l.running = false)
      (here : l.queue = before ++ .received (some data) :: after)
      (parsed : ReceivedReporting l.client.parsing data out reports t) :
      LinkStep locations now cache l (.run (.received (some data))) cache
        { l with
          queue := before ++ after
          running := true
          requests := l.requests ++ out
          client := { l.client with
            parsing := t, pending := out, reported := l.client.reported ++ reports } }
  | failed {before after : List Callback} (free : l.running = false)
      (here : l.queue = before ++ .received none :: after) :
      LinkStep locations now cache l (.run (.received none)) cache
        { l with queue := before ++ after }
  | completed {before after : List Callback} (free : l.running = false)
      (here : l.queue = before ++ .completed :: after) :
      LinkStep locations now cache l (.run .completed) cache { l with queue := before ++ after }
  | timeout {before after : List Callback} {aborted : Bool} (free : l.running = false)
      (here : l.queue = before ++ .timeout aborted :: after) :
      LinkStep locations now cache l (.run (.timeout aborted)) cache
        { l.timeout aborted with queue := before ++ after }
  /-- `log_request_info` and `thread_work` on the next request of the read. -/
  | work {w : World} {d : Delivery} {rest : List Delivery} {res : Response} {cache' : Cache}
      (running : l.running = true) (next : l.client.pending = d :: rest) (attached : l.Attached)
      (served : (processReq locations w d.request cache).result = .ok (res, cache')) :
      LinkStep locations now cache l (.work w) cache'
        { l with
          writes := l.writes ++
            [⟨responseBytes ⟨d, cache, processReq locations w d.request cache⟩, true⟩]
          client := { l.client with
            pending := rest
            answers := l.client.answers ++
              [⟨d, cache, processReq locations w d.request cache⟩] } }
  /-- `wait_for_req`, with which `received_req` ends. -/
  | wait (running : l.running = true) (last : l.client.pending = []) :
      LinkStep locations now cache l .wait cache (Link.read { l with running := false } now)
  /-- The last reference is gone: the destructors cancel the timer and close the socket. -/
  | destroy (unused : l.references = 0) (live : l.destroyed = false) :
      LinkStep locations now cache l .destroy cache
        { l with
          queue := l.queue ++ l.cancelled
          timer := none
          opened := false
          destroyed := true }

/-- A callback of a session can raise an exception. -/
inductive Raises (locations : Locations) (cache : Cache) (l : Link) : Prop
  | parse {before after : List Callback} {data : Bytes} {out : List Delivery} {e : Fault}
      (free : l.running = false) (here : l.queue = before ++ .received (some data) :: after)
      (raised : Ends (receivePass data) l.client.parsing out (.raised e))
      (thrown : e ≠ .undefinedBehaviour)
  /-- `log_request_info` asks for the `remote_endpoint` of a socket that has none. -/
  | log {d : Delivery} {rest : List Delivery} (running : l.running = true)
      (next : l.client.pending = d :: rest) (detached : ¬ l.Attached)
  | work {w : World} {d : Delivery} {rest : List Delivery} {e : Fault} (running : l.running = true)
      (next : l.client.pending = d :: rest) (attached : l.Attached)
      (raised : (processReq locations w d.request cache).result = .error e)
      (thrown : e ≠ .undefinedBehaviour)

/-- The server: the time, the cache, the sessions, and the one whose exception has ended the
process. -/
structure Async where
  now : Nat
  cache : Cache
  links : List Link
  ended : Option Nat

def Async.started : Async := ⟨0, ∅, [], none⟩

inductive Event
  | accept
  | tick (d : Nat)
  | link (i : Nat) (e : LinkEvent)
  | raise (i : Nat)

inductive Step (locations : Locations) (σ : Async) : Event → Async → Prop
  /-- `handle_accept` calls `session::start`. -/
  | accept (alive : σ.ended = none) :
      Step locations σ .accept { σ with links := σ.links ++ [Link.accepted.read σ.now] }
  | tick (alive : σ.ended = none) (d : Nat) : Step locations σ (.tick d) { σ with now := σ.now + d }
  | link {i : Nat} {l l' : Link} {e : LinkEvent} {cache : Cache} (alive : σ.ended = none)
      (here : σ.links[i]? = some l) (next : LinkStep locations σ.now σ.cache l e cache l') :
      Step locations σ (.link i e) { σ with cache := cache, links := σ.links.set i l' }
  /-- The threads run `io_service::run` outside the `try` of `main`: an exception that leaves a
  callback ends the process. -/
  | raise {i : Nat} {l : Link} (alive : σ.ended = none) (here : σ.links[i]? = some l)
      (raises : Raises locations σ.cache l) : Step locations σ (.raise i) { σ with ended := some i }

inductive Reachable (locations : Locations) : Async → Prop
  | start : Reachable locations .started
  | step {σ τ : Async} {e : Event} (before : Reachable locations σ)
      (next : Step locations σ e τ) : Reachable locations τ

/-- The bytes of a read fit into the buffer. -/
def Callback.Fits : Callback → Prop
  | .received (some data) => data.length ≤ 8192
  | _ => True

/-- What holds of a session between two steps: the buffer has one user, an open socket is watched
by the timer, and a destroyed session is not referred to. -/
structure Sound (now : Nat) (l : Link) : Prop where
  single : l.reading.toNat + l.queue.countP Callback.isReceived + l.running.toNat ≤ 1
  idle : l.running = false → l.client.pending = []
  fits : ∀ c ∈ l.queue, c.Fits
  watched : l.opened = true → l.timer.isSome = true ∨ .timeout false ∈ l.queue
  soon : ∀ t, l.timer = some t → t ≤ now + 3000
  gone : l.destroyed = true → l.references = 0 ∧ l.timer = none ∧ l.opened = false

section Invariant

variable {locations : Locations} {now : Nat} {cache cache' : Cache} {l l' : Link} {e : LinkEvent}
  {before after : List Callback} {c : Callback}

theorem countP_split {α : Type} (p : α → Bool) (before after : List α) (a : α) :
    (before ++ a :: after).countP p = (before ++ after).countP p + (p a).toNat := by
  rw [List.countP_append, List.countP_append, List.countP_cons]
  cases p a
  · rfl
  · rfl

theorem countP_cancelled (p : Callback → Bool) (none : p (.timeout true) = false) :
    l.cancelled.countP p = 0 := by
  unfold Link.cancelled
  split
  · simp [none]
  · rfl

private theorem references_cancelled :
    (l.queue ++ l.cancelled).countP Callback.holds = l.queue.countP Callback.holds := by
  rw [List.countP_append, countP_cancelled _ rfl, Nat.add_zero]

private theorem received_cancelled :
    (l.queue ++ l.cancelled).countP Callback.isReceived =
      l.queue.countP Callback.isReceived := by
  rw [List.countP_append, countP_cancelled _ rfl, Nat.add_zero]

private theorem fits_cancelled (fits : ∀ c ∈ l.queue, c.Fits) :
    ∀ c ∈ l.queue ++ l.cancelled, c.Fits := by
  intro c hc
  rcases List.mem_append.mp hc with hc | hc
  · exact fits c hc
  · unfold Link.cancelled at hc
    split at hc
    · obtain rfl := List.mem_singleton.mp hc
      trivial
    · cases hc

private theorem fits_drop (here : l.queue = before ++ c :: after) (fits : ∀ c ∈ l.queue, c.Fits) :
    ∀ c ∈ before ++ after, c.Fits := by
  intro d hd
  apply fits
  rw [here]
  rcases List.mem_append.mp hd with hd | hd
  · exact List.mem_append_left _ hd
  · exact List.mem_append_right _ (List.mem_cons_of_mem _ hd)

private theorem Sound.read (single : l.queue.countP Callback.isReceived + l.running.toNat = 0)
    (idle : l.client.pending = []) (fits : ∀ c ∈ l.queue, c.Fits) (live : l.destroyed = false) :
    Sound now (l.read now) where
  single := by
    simp only [Link.read, received_cancelled, Bool.toNat_true]
    omega
  idle _ := idle
  fits := fits_cancelled fits
  watched _ := .inl rfl
  soon t armed := by
    obtain rfl := Option.some.inj armed
    exact le_rfl
  gone destroyed := by
    rw [Link.read, live] at destroyed
    cases destroyed

private theorem Sound.live (h : Sound now l) (used : 0 < l.references) : ¬ l.destroyed = true := by
  intro destroyed
  have unused := (h.gone destroyed).1
  omega

private theorem references_reading (reading : l.reading = true) : 0 < l.references := by
  rw [Link.references, reading, Bool.toNat_true]
  omega

theorem references_running (running : l.running = true) : 0 < l.references := by
  rw [Link.references, running, Bool.toNat_true]
  omega

theorem references_queued (here : l.queue = before ++ c :: after) (holds : c.holds = true) :
    0 < l.references := by
  rw [Link.references, here, countP_split, holds, Bool.toNat_true]
  omega

private theorem references_writing {first last : List Write} {rest : Bytes}
    (here : l.writes = first ++ ⟨rest, true⟩ :: last) : 0 < l.references := by
  have pending : (Write.pending ⟨rest, true⟩).toNat = 1 := rfl
  rw [Link.references, here, countP_split, pending]
  omega

theorem mem_drop (here : l.queue = before ++ c :: after) {d : Callback} (other : d ≠ c)
    (queued : d ∈ l.queue) : d ∈ before ++ after := by
  rw [here, List.mem_append, List.mem_cons] at queued
  rw [List.mem_append]
  obtain first | same | last := queued
  · exact .inl first
  · exact absurd same other
  · exact .inr last

private theorem Sound.watched_append (h : Sound now l) (more : List Callback) :
    l.opened = true → l.timer.isSome = true ∨ .timeout false ∈ l.queue ++ more :=
  fun opened => (h.watched opened).imp_right (List.mem_append_left more)

private theorem Sound.watched_drop (h : Sound now l) (here : l.queue = before ++ c :: after)
    (other : .timeout false ≠ c) :
    l.opened = true → l.timer.isSome = true ∨ .timeout false ∈ before ++ after :=
  fun opened => (h.watched opened).imp_right (mem_drop here other)

private theorem Sound.drop (h : Sound now l) (here : l.queue = before ++ c :: after)
    (other : .timeout false ≠ c) : Sound now { l with queue := before ++ after } := by
  have single := h.single
  rw [here, countP_split] at single
  refine ⟨?_, h.idle, fits_drop here h.fits, h.watched_drop here other, h.soon, ?_⟩
  · simp only at single ⊢
    omega
  · intro destroyed
    obtain ⟨unused, gone⟩ := h.gone destroyed
    refine ⟨?_, gone⟩
    rw [Link.references, here, countP_split] at unused
    simp only [Link.references]
    omega

private theorem Sound.close (h : Sound now l) (here : l.queue = before ++ .timeout false :: after) :
    Sound now { l with opened := false, queue := before ++ after } := by
  have single := h.single
  rw [here, countP_split] at single
  refine ⟨?_, h.idle, fits_drop here h.fits, by simp, h.soon, ?_⟩
  · simp only at single ⊢
    omega
  · intro destroyed
    obtain ⟨unused, gone⟩ := h.gone destroyed
    refine ⟨?_, gone.1, rfl⟩
    rw [Link.references, here, countP_split] at unused
    simp only [Link.references]
    omega

private theorem Sound.step (h : Sound now l) (next : LinkStep locations now cache l e cache' l') :
    Sound now l' := by
  have single := h.single
  cases next with
  | @expire t armed due =>
      refine ⟨?_, h.idle, forall_mem_concat h.fits trivial, fun _ => .inr (by simp), by simp, ?_⟩
      · simpa [Callback.isReceived] using single
      · intro destroyed
        have timer := (h.gone destroyed).2.1
        rw [armed] at timer
        cases timer
  | arrive reading _ _ size =>
      refine ⟨?_, h.idle, forall_mem_concat h.fits size, h.watched_append _, h.soon,
        fun destroyed => absurd destroyed (h.live (references_reading reading))⟩
      simpa [reading, Callback.isReceived, Nat.add_comm 1] using single
  | hangup reading =>
      refine ⟨?_, h.idle, forall_mem_concat h.fits trivial, h.watched_append _, h.soon,
        fun destroyed => absurd destroyed (h.live (references_reading reading))⟩
      simpa [reading, Callback.isReceived, Nat.add_comm 1] using single
  | reset => exact ⟨single, h.idle, h.fits, h.watched, h.soon, h.gone⟩
  | @send _ _ _ rest attached here =>
      refine ⟨?_, h.idle, ?_, h.watched_append _, h.soon,
        fun destroyed => absurd destroyed (h.live (references_writing here))⟩
      · by_cases last : rest = []
        · simpa [last, Callback.isReceived] using single
        · simpa [last] using single
      · by_cases last : rest = []
        · simp only [if_pos last]
          exact forall_mem_concat h.fits trivial
        · simp only [if_neg last, List.append_nil]
          exact h.fits
  | lose here =>
      refine ⟨?_, h.idle, forall_mem_concat h.fits trivial, h.watched_append _, h.soon,
        fun destroyed => absurd destroyed (h.live (references_writing here))⟩
      simpa [Callback.isReceived] using single
  | @received before after data _ _ _ free here parsed =>
      -- the buffer passes from the callback to the loop that parses it
      rw [here, countP_split, free] at single
      refine ⟨?_, by simp, fits_drop here h.fits, h.watched_drop here (by simp), h.soon,
        fun destroyed => absurd destroyed (h.live (references_queued here rfl))⟩
      have used : (Callback.isReceived (.received (some data))).toNat = 1 := rfl
      simp only [Bool.toNat_true, Bool.toNat_false] at single ⊢
      omega
  | failed free here => exact h.drop here (by simp)
  | completed free here => exact h.drop here (by simp)
  | @timeout before after aborted free here =>
      cases aborted with
      | true => exact h.drop here (by simp)
      | false => exact h.close here
  | @work w d rest res cache' running next attached served =>
      refine ⟨single, ?_, h.fits, h.watched, h.soon,
        fun destroyed => absurd destroyed (h.live (references_running running))⟩
      intro free
      rw [running] at free
      cases free
  | wait running last =>
      refine Sound.read ?_ last h.fits ?_
      · simp only [running, Bool.toNat_true, Bool.toNat_false] at single ⊢
        omega
      · simpa using h.live (references_running running)
  | destroy unused live =>
      refine ⟨?_, h.idle, fits_cancelled h.fits, by simp, by simp, fun _ => ⟨?_, rfl, rfl⟩⟩
      · rw [received_cancelled]
        exact single
      · simp only [Link.references, references_cancelled] at unused ⊢
        exact unused

private theorem Sound.tick (h : Sound now l) (d : Nat) : Sound (now + d) l := by
  refine ⟨h.single, h.idle, h.fits, h.watched, ?_, h.gone⟩
  intro t armed
  have bound := h.soon t armed
  omega

theorem Reachable.sound {σ : Async} (h : Reachable locations σ) :
    ∀ l ∈ σ.links, Sound σ.now l := by
  induction h with
  | start => simp [Async.started]
  | step _ next ih =>
      cases next with
      | accept alive =>
          exact forall_mem_concat ih (Sound.read rfl rfl (by simp [Link.accepted]) rfl)
      | tick alive d =>
          intro l hl
          exact (ih l hl).tick d
      | link alive here next =>
          intro l hl
          rcases List.mem_or_eq_of_mem_set hl with hl | rfl
          · exact ih l hl
          · exact (ih _ (List.mem_of_getElem? here)).step next
      | raise => exact ih

end Invariant

section Refinement

/-- What the peer has sent and got, without the callbacks. -/
def Link.wire (l : Link) : Wire := ⟨l.requests, l.writes.map Write.rest, l.sent⟩

/-- The server without its callbacks, timers and sockets. -/
def Async.abstract (σ : Async) : Writes.State where
  server := ⟨σ.cache, σ.links.map Link.client⟩
  wires i := ((σ.links[i]?).map Link.wire).getD ⟨[], [], []⟩

variable {locations : Locations} {σ τ : Async} {i : Nat} {l l' : Link} {cache : Cache}

private theorem client_abstract (here : σ.links[i]? = some l) :
    σ.abstract.server.clients[i]? = some l.client := by
  simp [Async.abstract, here]

private theorem wire_abstract (here : σ.links[i]? = some l) : σ.abstract.wires i = l.wire := by
  simp [Async.abstract, here]

private theorem abstract_set (here : σ.links[i]? = some l) :
    ({ σ with cache := cache, links := σ.links.set i l' } : Async).abstract =
      σ.abstract.update ⟨cache, (σ.links.map Link.client).set i l'.client⟩ i l'.wire := by
  obtain ⟨bound, -⟩ := List.getElem?_eq_some_iff.mp here
  simp only [Async.abstract, Writes.State.update, List.map_set, Writes.State.mk.injEq, true_and]
  ext1 j
  by_cases hj : j = i
  · subst hj
    simp [bound]
  · simp [hj, List.getElem?_set_ne (Ne.symm hj)]

private theorem clients_set (here : σ.links[i]? = some l) :
    (σ.links.map Link.client).set i l.client = σ.links.map Link.client := by
  obtain ⟨bound, found⟩ := List.getElem?_eq_some_iff.mp (client_abstract here)
  rw [← found]
  exact List.set_getElem_self bound

private theorem abstract_accept :
    ({ σ with links := σ.links ++ [Link.accepted.read σ.now] } : Async).abstract =
      { σ.abstract with
        server := ⟨σ.cache, σ.links.map Link.client ++ [.connected]⟩ } := by
  simp only [Async.abstract, List.map_append, Writes.State.mk.injEq]
  refine ⟨rfl, ?_⟩
  ext1 j
  by_cases hj : j < σ.links.length
  · rw [List.getElem?_append_left hj]
  · rw [List.getElem?_append_right (by omega),
      List.getElem?_eq_none (by omega : σ.links.length ≤ j)]
    cases j - σ.links.length with
    | zero => rfl
    | succ n => rfl

private theorem abstract_stutter (here : σ.links[i]? = some l) (client : l'.client = l.client)
    (wire : l'.wire = l.wire) :
    ({ σ with links := σ.links.set i l' } : Async).abstract = σ.abstract := by
  rw [abstract_set here, client, clients_set here, wire, ← wire_abstract here]
  simp [Writes.State.update, Async.abstract]

private theorem simulated (sound : ∀ l ∈ σ.links, Sound σ.now l) {e : Event}
    (next : Step locations σ e τ) :
    τ.abstract = σ.abstract ∨ ∃ e', Writes.Step locations σ.abstract e' τ.abstract := by
  cases next with
  | accept =>
      refine .inr ⟨.server .accept, ?_⟩
      rw [abstract_accept]
      exact .accept .accept
  | tick => exact .inl rfl
  | raise => exact .inl rfl
  | @link i l l' e cache alive here next =>
      have client := client_abstract here
      cases next with
      | expire => exact .inl (abstract_stutter here rfl rfl)
      | arrive => exact .inl (abstract_stutter here rfl rfl)
      | hangup => exact .inl (abstract_stutter here rfl rfl)
      | reset => exact .inl (abstract_stutter here rfl rfl)
      | @send before after piece rest attached writes some =>
          refine .inr ⟨.send i, ?_⟩
          have writing : (σ.abstract.wires i).writing =
              before.map Write.rest ++ (piece ++ rest) :: after.map Write.rest := by
            simp [wire_abstract here, Link.wire, writes]
          have step : Writes.Step locations σ.abstract (.send i) _ := .send writing some
          rw [wire_abstract here] at step
          rw [abstract_set here, clients_set here]
          by_cases last : rest = []
          · simp only [Link.wire, if_pos last, List.map_append] at step ⊢
            exact step
          · simp only [Link.wire, if_neg last, List.map_append, List.map_cons] at step ⊢
            exact step
      | @lose before after rest writes =>
          refine .inl (abstract_stutter here rfl ?_)
          simp [Link.wire, writes]
      | @received before after data out reports t free queued parsed =>
          refine .inr ⟨.server (.read i data), ?_⟩
          have sound := sound l (List.mem_of_getElem? here)
          have size : data.length ≤ 8192 :=
            sound.fits (.received (some data)) (by rw [queued]; simp)
          have read : Writes.Step locations σ.abstract (.server (.read i data)) _ :=
            .read (.read client (sound.idle free) size parsed)
              (List.getElem?_set_self (List.getElem?_eq_some_iff.mp client).1)
          rw [wire_abstract here] at read
          rw [abstract_set here]
          exact read
      | failed => exact .inl (abstract_stutter here rfl rfl)
      | completed => exact .inl (abstract_stutter here rfl rfl)
      | @timeout before after aborted =>
          refine .inl (abstract_stutter here ?_ ?_)
          · cases aborted <;> rfl
          · cases aborted <;> rfl
      | @work w d rest res cache' running pending attached served =>
          refine .inr ⟨.server (.work i w), ?_⟩
          have work : Writes.Step locations σ.abstract (.server (.work i w)) _ :=
            .work (.work client pending served)
              (List.getElem?_set_self (List.getElem?_eq_some_iff.mp client).1) rfl
          rw [wire_abstract here] at work
          rw [abstract_set here]
          simp only [Link.wire, List.map_append] at work ⊢
          exact work
      | wait => exact .inl (abstract_stutter here rfl rfl)
      | destroy => exact .inl (abstract_stutter here rfl rfl)

theorem refined (reachable : Reachable locations σ) :
    Writes.Reaches locations (fun _ _ => True) σ.abstract := by
  induction reachable with
  | start => exact .start
  | step before next ih =>
      obtain same | ⟨e, step⟩ := simulated before.sound next
      · rw [same]
        exact ih
      · exact ih.step trivial step

end Refinement

/-- Whatever the order in which operations end, timers run out and threads run the callbacks, the
sessions do what the server does whose sessions read, work and write in turn. -/
theorem callbacks_refine_steps (locations : Locations) (σ : Async)
    (reachable : Reachable locations σ) :
    Writes.Reaches locations (fun _ _ => True) σ.abstract :=
  refined reachable

theorem reachable_echo :
    ∃ σ l a, Reachable echoLocations σ ∧ σ.links = [l] ∧ l.queue = [.timeout false] ∧
      l.client.answers = [a] := by
  have accepted : Reachable echoLocations _ := .step .start (.accept rfl)
  have arrived := accepted.step (.link (i := 0) rfl rfl
    (@LinkStep.arrive _ _ _ _ (lit "GET /echo/ HTTP/1.0\r\n\r\n") rfl rfl (by decide) (by decide)))
  have received := arrived.step (.link (i := 0) rfl rfl
    (@LinkStep.received _ _ _ _ [] [] _ _ _ _ rfl rfl Writes.received_echoRequest))
  have later := received.step (.tick rfl 3000)
  have expired := later.step (.link (i := 0) rfl rfl (.expire rfl (by decide)))
  have answered :=
    expired.step (.link (i := 0) rfl rfl (.work (w := ⟨fun _ => none, []⟩) rfl rfl ⟨rfl, rfl⟩ rfl))
  have waiting := answered.step (.link (i := 0) rfl rfl (.wait rfl rfl))
  exact ⟨_, _, _, waiting, rfl, rfl, rfl⟩

theorem callbacks_refine_steps_echo :
    ∃ σ, Reachable echoLocations σ ∧ σ.links.length = 1 ∧
      Writes.Reaches echoLocations (fun _ _ => True) σ.abstract := by
  obtain ⟨σ, l, a, reachable, links, -, -⟩ := reachable_echo
  refine ⟨σ, reachable, ?_, callbacks_refine_steps _ _ reachable⟩
  rw [links]
  rfl

/-- In every state the bytes of a read have one user; a socket that is open is closed by the timer
within three seconds, or by its callback; and of a destroyed session only callbacks of the timer
are left. -/
theorem connections_watched (locations : Locations) (σ : Async)
    (reachable : Reachable locations σ) (i : Nat) (l : Link) (here : σ.links[i]? = some l) :
    l.reading.toNat + l.queue.countP Callback.isReceived + l.running.toNat ≤ 1 ∧
    (l.opened = true →
      (∃ t, l.timer = some t ∧ t ≤ σ.now + 3000) ∨ .timeout false ∈ l.queue) ∧
    (l.destroyed = true →
      l.opened = false ∧ l.timer = none ∧ l.reading = false ∧ l.running = false ∧
        (∀ w ∈ l.writes, w.pending = false) ∧ ∀ c ∈ l.queue, ∃ aborted, c = .timeout aborted) := by
  have sound := reachable.sound l (List.mem_of_getElem? here)
  refine ⟨sound.single, ?_, ?_⟩
  · intro opened
    obtain armed | queued := sound.watched opened
    · obtain ⟨t, armed⟩ := Option.isSome_iff_exists.mp armed
      exact .inl ⟨t, armed, sound.soon t armed⟩
    · exact .inr queued
  · intro destroyed
    obtain ⟨unused, timer, closed⟩ := sound.gone destroyed
    simp only [Link.references, Nat.add_eq_zero_iff, List.countP_eq_zero, Bool.toNat_eq_zero]
      at unused
    obtain ⟨⟨⟨queue, writes⟩, reading⟩, running⟩ := unused
    refine ⟨closed, timer, reading, running, by simpa using writes, ?_⟩
    intro c hc
    cases c with
    | timeout aborted => exact ⟨aborted, rfl⟩
    | received data => exact absurd rfl (queue _ hc)
    | completed => exact absurd rfl (queue _ hc)

/-- The timer runs out just after the peer has closed the connection: its callback is left behind
when the session is destroyed. -/
theorem connections_watched_left_behind :
    ∃ σ l, Reachable echoLocations σ ∧ σ.links[0]? = some l ∧ l.destroyed = true ∧
      .timeout false ∈ l.queue ∧ l.timer = none := by
  have accepted : Reachable echoLocations _ := .step .start (.accept rfl)
  have later := accepted.step (.tick rfl 3000)
  have closed := later.step (.link (i := 0) rfl rfl (.hangup rfl))
  have expired := closed.step (.link (i := 0) rfl rfl (.expire rfl (by decide)))
  have failed := expired.step (.link (i := 0) rfl rfl
    (@LinkStep.failed _ _ _ _ [] [.timeout false] rfl rfl))
  have destroyed := failed.step (.link (i := 0) rfl rfl (.destroy rfl rfl))
  exact ⟨_, _, destroyed, rfl, rfl, List.mem_cons_self,
    ((connections_watched _ _ destroyed 0 _ rfl).2.2 rfl).2.1⟩

end Wnza.Server.Strand
