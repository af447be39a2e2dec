/- GID: Wnza/Server/Linearization
   generality: I
   source: src/session.cc (process_req, thread_work), src/server.cc
   digest: Sessions that share a cache answer like one service without a cache, one request at a
     time. -/

import Wnza.Foundation.Memo
import Wnza.Server.Writes
import Wnza.Session.Transparency

set_option autoImplicit false
set_option relaxedAutoImplicit false

namespace Wnza.Server.Linearization

open Wnza.Foundation.Memo
open Wnza.Http.Text
open Wnza.Http.Parser
open Wnza.Handler.Basic
open Wnza.Session.Dispatch
open Wnza.Session.Transparency
open Wnza.Session.Receive
open Wnza.Server.Steps
open Wnza.Server.Writes (clientAt clientAt_eq clientAt_set_ne clientAt_concat)

/-- What `process_req` is for, without its cache: the handler of the selected location computes
the answer to a valid request, and the answer to the first one for a URI is given again, except for
the status page. -/
def memo (locations : Locations) : Service (World × Request) Bytes Response where
  key q := q.2.uri
  volatile uri := uri == lit "/status"
  compute q :=
    if q.2.method = .INVALID then none
    else
      match route locations q.2.uri with
      | .ok (some key) =>
          locations[key]?.bind (fun handler => (handler.handleRequest q.1 q.2).toOption)
      | _ => none
  refusal := Response.empty.make400Error

section Calls

variable {locations : Locations} {w : World} {req : Request} {cache after : Cache}
  {res : Response}

def lookups (cache : Cache) (uri : Bytes) : Option Response := cache[uri]?

private theorem compute_refused
    (unrouted : req.method = .INVALID ∨ route locations req.uri = .ok none) :
    (memo locations).compute (w, req) = none := by
  rcases unrouted with invalid | unrouted
  · simp only [memo, if_pos invalid]
  · simp only [memo, unrouted, ite_self]

private theorem compute_routed {key : Bytes} {handler : RequestHandler}
    (valid : req.method ≠ .INVALID) (routed : route locations req.uri = .ok (some key))
    (found : locations[key]? = some handler) (answered : handler.handleRequest w req = .ok res) :
    (memo locations).compute (w, req) = some res := by
  simp only [memo, if_neg valid, routed, found, Option.bind_some, answered]
  rfl

private theorem lookups_insert (cache : Cache) (uri : Bytes) (res : Response) :
    lookups (cache.insert uri res) = Function.update (lookups cache) uri (some res) := by
  funext other
  by_cases same : other = uri
  · subst same
    rw [Function.update_self, lookups, Std.ExtTreeMap.getElem?_insert_self]
  · have differs : compare uri other ≠ .eq := fun h => same (Std.LawfulEqCmp.eq_of_compare h).symm
    rw [Function.update_of_ne same, lookups, Std.ExtTreeMap.getElem?_insert, if_neg differs,
      lookups]

private theorem volatile_or_none (fresh : cached cache req.uri = none) :
    (if (memo locations).volatile req.uri then none else lookups cache req.uri) = none := by
  by_cases hstatus : req.uri = lit "/status"
  · simp [memo, hstatus]
  · rw [cached_eq hstatus] at fresh
    simp [memo, hstatus, lookups, fresh]

private theorem processReq_refines
    (returned : (processReq locations w req cache).result = .ok (res, after)) :
    (memo locations).serve (lookups cache) (w, req) = (res, lookups after) := by
  have key : (memo locations).key (w, req) = req.uri := rfl
  unfold Service.serve
  rw [key]
  obtain ⟨hit, rfl⟩ | ⟨fresh, unrouted, rfl⟩ |
    ⟨fresh, valid, location, handler, routed, found, answered, rfl⟩ := processReq_ok returned
  · have hstatus : req.uri ≠ lit "/status" := by
      intro hstatus
      rw [cached, if_pos hstatus] at hit
      cases hit
    rw [cached_eq hstatus] at hit
    have stored : (if (memo locations).volatile req.uri then none else lookups after req.uri) =
        some res := by
      simp [memo, hstatus, lookups, hit]
    rw [stored]
  · rw [processReq_of_unrouted w fresh unrouted, refuse, Except.ok.injEq, Prod.mk.injEq] at returned
    rw [volatile_or_none fresh, compute_refused unrouted]
    simp only [memo, returned.1]
  · rw [volatile_or_none fresh, compute_routed valid routed found answered]
    simp only [lookups_insert]

end Calls

/-- A request with the session it came from, the world it was processed in and its response. -/
structure Served where
  client : Nat
  world : World
  delivery : Delivery
  response : Response

def Served.query (s : Served) : World × Request := (s.world, s.delivery.request)

def seen (a : Answer) : Delivery × Option Response :=
  (a.delivery, a.processed.result.toOption.map Prod.fst)

def seenBy (history : List Served) (i : Nat) : List (Delivery × Option Response) :=
  (history.filter (fun s => s.client = i)).map (fun s => (s.delivery, some s.response))

/-- One order of all requests for the answers of all sessions: each session has its own ones in its
own order, and each response is the one of the service without a memory behind all earlier
requests, whichever sessions they came from. -/
structure Linearized (locations : Locations) (σ : ServerState) (history : List Served) : Prop where
  seen : ∀ i, (clientAt σ i).answers.map seen = seenBy history i
  answered : ∀ past s later, history = past ++ s :: later →
    s.response = (memo locations).answer (past.map Served.query) s.query
  remembers : (memo locations).Remembers (history.map Served.query) (lookups σ.cache)

section Runs

variable {locations : Locations} {σ τ : ServerState} {e : Event} {history : List Served}

private theorem seenBy_concat (s : Served) (i : Nat) :
    seenBy (history ++ [s]) i =
      seenBy history i ++ if s.client = i then [(s.delivery, some s.response)] else [] := by
  rw [seenBy, List.filter_append, List.map_append, ← seenBy]
  congr 1
  by_cases same : s.client = i
  · simp [same]
  · simp [same]

private theorem Linearized.silent (h : Linearized locations σ history) (cache : τ.cache = σ.cache)
    (same : ∀ i, (clientAt τ i).answers = (clientAt σ i).answers) :
    Linearized locations τ history := by
  refine ⟨fun i => ?_, h.answered, ?_⟩
  · rw [same, h.seen]
  · rw [cache]
    exact h.remembers

private theorem Linearized.step (h : Linearized locations σ history) (next : Step locations σ e τ) :
    ∃ more, Linearized locations τ (history ++ more) := by
  cases next with
  | accept =>
      refine ⟨[], ?_⟩
      rw [List.append_nil]
      exact h.silent rfl (fun i => by rw [clientAt_concat])
  | @read i data c out reports t client idle size received =>
      refine ⟨[], ?_⟩
      rw [List.append_nil]
      refine h.silent rfl (fun j => ?_)
      by_cases hj : j = i
      · subst hj
        obtain ⟨bound, -⟩ := List.getElem?_eq_some_iff.mp client
        rw [clientAt_eq client, clientAt_eq (List.getElem?_set_self bound)]
      · rw [ServerState.update, clientAt_set_ne hj]
  | @work i w c d rest res cache client pending served =>
      refine ⟨[⟨i, w, d, res⟩], ?_, ?_, ?_⟩
      · intro j
        rw [seenBy_concat]
        by_cases hj : j = i
        · subst hj
          obtain ⟨bound, -⟩ := List.getElem?_eq_some_iff.mp client
          have before := h.seen j
          rw [clientAt_eq client] at before
          rw [clientAt_eq (List.getElem?_set_self bound), List.map_append, before, if_pos rfl]
          simp only [List.map_cons, List.map_nil, Linearization.seen, served, Except.toOption,
            Option.map_some]
        · rw [clientAt_set_ne hj, h.seen, if_neg (Ne.symm hj), List.append_nil]
      · intro past s later split
        rcases List.eq_nil_or_concat later with rfl | ⟨later, last, rfl⟩
        · obtain ⟨rfl, hs⟩ := List.append_inj' split rfl
          obtain rfl := (List.cons.inj hs).1
          have answer := h.remembers.answer (w, d.request)
          rw [processReq_refines served] at answer
          exact answer
        · rw [List.concat_eq_append, ← List.cons_append, ← List.append_assoc] at split
          exact h.answered past s later (List.append_inj' split rfl).1
      · have after := h.remembers.serve (w, d.request)
        rw [processReq_refines served] at after
        rw [List.map_append]
        exact after

theorem exists_linearized {B : ServerState → Event → Prop} (run : Reaches locations B σ) :
    ∃ history, Linearized locations σ history := by
  induction run with
  | start =>
      refine ⟨[], fun i => rfl, ?_, ?_⟩
      · intro past s later split
        simp at split
      · exact .nil
  | step before meets next ih =>
      obtain ⟨history, h⟩ := ih
      obtain ⟨more, h⟩ := h.step next
      exact ⟨_, h⟩

end Runs

/-- In every run in which the calls of `process_req` are atomic steps, whatever the clients send and
in whatever order the sessions work on the shared cache, the answers are those of one service
without a cache to one sequence of requests. -/
theorem answers_linearized (locations : Locations) (B : ServerState → Event → Prop)
    (σ : ServerState) (run : Reaches locations B σ) : ∃ history, Linearized locations σ history :=
  exists_linearized run

/-- Two sessions ask for the same page; the second one gets the entry that the first one has
left. -/
theorem answers_linearized_shared :
    ∃ σ history a b, Reaches echoLocations (fun _ _ => True) σ ∧
      (clientAt σ 0).answers = [a] ∧ a.processed.fromCache = false ∧
      (clientAt σ 1).answers = [b] ∧ b.processed.fromCache = true ∧
      Linearized echoLocations σ history := by
  have first : Reaches echoLocations (fun _ _ => True) _ := .step .start trivial .accept
  have both := first.step trivial .accept
  have read := both.step trivial
    (.read (i := 0) rfl rfl (by decide) Writes.received_echoRequest)
  have computed := read.step trivial (.work (i := 0) (w := ⟨fun _ => none, []⟩) rfl rfl rfl)
  have again := computed.step trivial
    (.read (i := 1) rfl rfl (by decide) Writes.received_echoRequest)
  have repeated := again.step trivial (.work (i := 1) (w := ⟨fun _ => none, []⟩) rfl rfl rfl)
  obtain ⟨history, linearized⟩ := answers_linearized _ _ _ repeated
  exact ⟨_, history, _, _, repeated, rfl, rfl, rfl, rfl, linearized⟩

end Wnza.Server.Linearization
