/- GID: Wnza/Server/Lengths
   generality: I
   source: src/response.cc, src/reverse_proxy_request_handler.cc, src/session.cc
   digest: The length that a response announces, over runs of requests to all handlers. -/

import Wnza.Server.Service

set_option autoImplicit false
set_option relaxedAutoImplicit false

namespace Wnza.Server.Lengths

open Wnza.Foundation.InputStream
open Wnza.Http.Text
open Wnza.Http.Parser
open Wnza.Config.Tree
open Wnza.Handler.Basic
open Wnza.Handler.Basic.Response
open Wnza.Handler.Echo
open Wnza.Handler.Static
open Wnza.Handler.Status
open Wnza.Handler.ProxyReading
open Wnza.Handler.ProxyTarget
open Wnza.Handler.ReverseProxy
open Wnza.Session.Dispatch
open Wnza.Server.Table
open Wnza.Server.Service

/-- The name equals `Content-Length` up to letter case. -/
def IsLengthName (name : Bytes) : Prop := name.map tolower = lit "content-length"

instance (name : Bytes) : Decidable (IsLengthName name) := inferInstanceAs (Decidable (_ = _))

def lengthHeaders (r : Response) : List (Bytes × Bytes) :=
  r.headers.toList.filter (fun h => IsLengthName h.1)

/-- One header announces a length, and it is the length of the body. -/
def Framed (r : Response) : Prop :=
  ∃ name, lengthHeaders r = [(name, stdToString r.body.length)]

def lineNames : List (Bytes × Bytes) → List Bytes
  | [] => []
  | (header, _) :: rest =>
      if header = [CR] then [] else headerToken header.dropLast :: lineNames rest

def replyNames (segments : List Bytes) : List Bytes :=
  let read := readUntil crlf [] segments
  let status := readStatus read.1
  if (status.2.2.fail = true ∨ status.1.take 5 ≠ lit "HTTP/") ∨ status.2.1 ≠ 200 then []
  else
    lineNames (({ status.2.2 with
      buffer := (readUntil (crlf ++ crlf) status.2.2.buffer read.2).1 } : Istream UInt8).lines LF)

/-- No header line of the reply announces a length under another spelling of the name. -/
def Clean (segments : List Bytes) : Prop :=
  ∀ name ∈ replyNames segments, IsLengthName name → name = lit "Content-Length"

/-- The proxy makes the response of a reply that one of the hosts gives. -/
def Relays (env : Env) (res : Response) (segments : List Bytes) : Prop :=
  ∃ prefixUri host req, env.net host req = some segments ∧
    readResponse env.world prefixUri segments = .ok (.respond res)

/-- The proxy has made the response, in this call or in an earlier one, of a reply that is not
clean. -/
def Spoiled (calls : List Call) (res : Response) : Prop :=
  ∃ c ∈ calls, ∃ segments, Relays c.env res segments ∧ ¬ Clean segments

/-- No other name than `Content-Length` itself announces a length. -/
def Only (r : Response) : Prop :=
  ∀ name ∈ r.headers, IsLengthName name → name = lit "Content-Length"

/-- `Content-Length` announces this value, and no other name announces a length. -/
structure Announces (r : Response) (value : Bytes) : Prop where
  only : Only r
  entry : r.headers[lit "Content-Length"]? = some value

section Builders

variable {r : Response} {key value v : Bytes}

private theorem mem_addHeader {name : Bytes} :
    name ∈ (r.addHeader key v).headers ↔ key = name ∨ name ∈ r.headers := by
  rw [addHeader, Std.ExtTreeMap.mem_insert, Std.compare_eq_iff_eq]

private theorem only_empty (code : StatusCode) : Only (empty.setCode code) := by
  intro name hname
  exact absurd hname Std.ExtTreeMap.not_mem_empty

private theorem Only.addHeader (h : Only r) (hkey : ¬ IsLengthName key) :
    Only (r.addHeader key v) := by
  intro name hname length
  rcases mem_addHeader.mp hname with rfl | hname
  · exact absurd length hkey
  · exact h name hname length

private theorem Only.announce (h : Only r) (v : Bytes) :
    Announces (r.addHeader (lit "Content-Length") v) v := by
  refine ⟨fun name hname length => ?_, ?_⟩
  · rcases mem_addHeader.mp hname with rfl | hname
    · rfl
    · exact h name hname length
  · exact Std.ExtTreeMap.getElem?_insert_self

private theorem entry_addHeader (hkey : ¬ IsLengthName key) :
    (r.addHeader key v).headers[lit "Content-Length"]? = r.headers[lit "Content-Length"]? := by
  have other : compare key (lit "Content-Length") ≠ .eq := by
    intro same
    rw [Std.LawfulEqCmp.eq_of_compare same] at hkey
    exact hkey (by decide)
  rw [Response.addHeader, Std.ExtTreeMap.getElem?_insert, if_neg other]

private theorem Announces.addHeader (h : Announces r value) (hkey : ¬ IsLengthName key) :
    Announces (r.addHeader key v) value :=
  ⟨h.only.addHeader hkey, (entry_addHeader hkey).trans h.entry⟩

private theorem Announces.addBody (h : Announces r value) (data : Bytes) :
    Announces (r.addBody data) value :=
  ⟨h.only, h.entry⟩

private theorem Announces.dated (h : Announces r value) (w : World) :
    Announces (makeDateServernameHeaders w r) value :=
  (h.addHeader (by decide)).addHeader (by decide)

private theorem framed_iff_only
    (entry : r.headers[lit "Content-Length"]? = some (stdToString r.body.length)) :
    Framed r ↔ Only r := by
  have member : (lit "Content-Length", stdToString r.body.length) ∈ lengthHeaders r := by
    have named : IsLengthName (lit "Content-Length") := by decide
    exact List.mem_filter.mpr
      ⟨Std.ExtTreeMap.mem_toList_iff_getElem?_eq_some.mpr entry, by simpa using named⟩
  constructor
  · rintro ⟨first, single⟩ name hname length
    have found : (name, r.headers[name]) ∈ lengthHeaders r := by
      refine List.mem_filter.mpr ⟨?_, by simpa using length⟩
      exact Std.ExtTreeMap.mem_toList_iff_getElem?_eq_some.mpr
        (Std.ExtTreeMap.getElem?_eq_some_getElem hname)
    rw [single, List.mem_singleton] at member found
    exact congrArg Prod.fst (found.trans member.symm)
  · intro only
    have same : ∀ h ∈ lengthHeaders r, h = (lit "Content-Length", stdToString r.body.length) := by
      intro h hmem
      obtain ⟨listed, length⟩ := List.mem_filter.mp hmem
      have value := Std.ExtTreeMap.mem_toList_iff_getElem?_eq_some.mp listed
      have hname : h.1 = lit "Content-Length" :=
        only h.1 (Std.ExtTreeMap.mem_iff_isSome_getElem?.mpr (by simp [value]))
          (by simpa using length)
      rw [hname, entry] at value
      exact Prod.ext hname (Option.some.inj value).symm
    have distinct : (lengthHeaders r).Nodup := by
      refine (Std.ExtTreeMap.distinct_keys_toList.filter _).imp ?_
      rintro a b differ rfl
      exact differ Std.ReflCmp.compare_self
    -- the names of a map are distinct, so the one entry is there once
    have all := List.eq_replicate_of_mem same
    rw [all, List.nodup_replicate] at distinct
    have some := List.length_pos_of_mem member
    exact ⟨_, by rw [all, show (lengthHeaders r).length = 1 by omega]; rfl⟩

private theorem Announces.framed (h : Announces r (stdToString r.body.length)) : Framed r :=
  (framed_iff_only h.entry).mpr h.only

end Builders

section Handlers

variable {w : World}

private theorem announces_make400Error : Announces empty.make400Error (stdToString 0) :=
  ((only_empty .BAD_REQ).announce (stdToString 0)).addBody []

private theorem framed_make400Error : Framed empty.make400Error := announces_make400Error.framed

private theorem framed_throw400Error : Framed (throw400Error w) :=
  Announces.framed (r := throw400Error w) (announces_make400Error.dated w)

private theorem announces_make404Error :
    Announces (make404Error w empty) (stdToString (notFoundPage w).length) :=
  Only.announce (Only.addHeader (r := (empty.setCode .NOT_FOUND).addBody (notFoundPage w))
    (only_empty .NOT_FOUND) (by decide)) _

private theorem framed_make404Error : Framed (make404Error w empty) :=
  Announces.framed (r := make404Error w empty) announces_make404Error

private theorem framed_dated404 : Framed (makeDateServernameHeaders w (make404Error w empty)) :=
  Announces.framed (r := makeDateServernameHeaders w (make404Error w empty))
    (announces_make404Error.dated w)

private theorem framed_echoResponse (req : Request) : Framed (echoResponse w req) := by
  unfold echoResponse
  cases methodName req.method with
  | none => exact (announces_make400Error.dated w).framed
  | some name =>
      have typed : Only ((empty.setCode .OK).addHeader (lit "Content-Type") (lit "text/plain")) :=
        (only_empty .OK).addHeader (by decide)
      exact (((typed.announce _).addBody (echoText name req)).dated w).framed

private theorem framed_healthResponse (req : Request) : Framed (healthResponse w req) := by
  unfold healthResponse
  split_ifs
  · have plain : Only ((empty.setCode .OK).addBody (lit "OK")) := only_empty .OK
    exact ((plain.announce _).dated w).framed
  · exact (announces_make400Error.dated w).framed

private theorem framed_statusResponse (hostName : Bytes) (files : List Bytes) :
    Framed (statusResponse hostName files w) := by
  have typed : Only ((empty.setCode .OK).addHeader (lit "Content-Type") (lit "text/plain")) :=
    (only_empty .OK).addHeader (by decide)
  exact (((typed.announce _).addBody
    (Wnza.Handler.Status.statusText hostName files)).dated w).framed

private theorem framed_static (h : StaticRequestHandler) (req : Request) :
    Framed (h.handleRequest w req) := by
  simp only [StaticRequestHandler.handleRequest]
  split_ifs
  · exact framed_make404Error
  · cases hfile : w.files (h.root ++ h.getFileName req.uri) with
    | none =>
        simp only [StaticRequestHandler.fileToBody, hfile]
        exact framed_make404Error
    | some body =>
        simp only [StaticRequestHandler.fileToBody, hfile]
        have typed : Only (((empty.setCode .OK).addBody body).addHeader (lit "Content-Type")
            (StaticRequestHandler.extensionToType
              (StaticRequestHandler.extensionOf (h.root ++ h.getFileName req.uri)))) :=
          Only.addHeader (r := (empty.setCode .OK).addBody body) (only_empty .OK) (by decide)
        exact ((typed.announce _).dated w).framed

end Handlers

section Proxy

variable {w : World} {prefixUri : Bytes} {res : Response}

private theorem mem_addHeaders {leftover content : Bytes} {lines : List (Bytes × Bytes)}
    {r r' : Response} (read : addHeaders leftover lines r = .ok (r', content)) (name : Bytes) :
    name ∈ r'.headers ↔
      name ∈ r.headers ∨ name ∈ lineNames lines ∧ name ≠ lit "Transfer-Encoding" := by
  induction lines generalizing r with
  | nil =>
      obtain ⟨rfl, -⟩ := Prod.mk.inj (Except.ok.inj read)
      simp [lineNames]
  | cons line lines ih =>
      obtain ⟨header, behind⟩ := line
      rw [addHeaders] at read
      rw [lineNames]
      split_ifs at read with blank empty named
      · obtain ⟨rfl, -⟩ := Prod.mk.inj (Except.ok.inj read)
        simp [blank]
      · rw [if_neg blank]
        cases hvalue : substrFrom header.dropLast (afterColon header.dropLast) with
        | error e => simp [hvalue] at read
        | ok value =>
            simp only [hvalue] at read
            rw [ih read, mem_addHeader, List.mem_cons]
            constructor
            · rintro ((rfl | old) | ⟨later, differs⟩)
              · exact .inr ⟨.inl rfl, named⟩
              · exact .inl old
              · exact .inr ⟨.inr later, differs⟩
            · rintro (old | ⟨rfl | later, differs⟩)
              · exact .inl (.inr old)
              · exact .inl (.inl rfl)
              · exact .inr ⟨later, differs⟩
      · rw [if_neg blank, ih read, List.mem_cons]
        have skipped : headerToken header.dropLast = lit "Transfer-Encoding" := not_not.mp named
        rw [skipped]
        constructor
        · rintro (old | ⟨later, differs⟩)
          · exact .inl old
          · exact .inr ⟨.inr later, differs⟩
        · rintro (old | ⟨rfl | later, differs⟩)
          · exact .inl old
          · exact absurd rfl differs
          · exact .inr ⟨later, differs⟩

private theorem framed_relayed_iff (r : Response) (body : Bytes) :
    Framed (makeDateServernameHeaders w
        ((r.addHeader (lit "Content-Length") (stdToString body.length)).addBody body)) ↔
      Only r := by
  have entry : (makeDateServernameHeaders w
      ((r.addHeader (lit "Content-Length") (stdToString body.length)).addBody body)).headers[
        lit "Content-Length"]? = some (stdToString body.length) := by
    rw [makeDateServernameHeaders, entry_addHeader (by decide), entry_addHeader (by decide)]
    exact Std.ExtTreeMap.getElem?_insert_self
  rw [framed_iff_only entry]
  constructor
  · intro only name hname announced
    refine only name ?_ announced
    exact mem_addHeader.mpr (.inr (mem_addHeader.mpr (.inr (mem_addHeader.mpr (.inr hname)))))
  · intro only
    exact (((only.announce _).addBody body).dated w).only

private theorem framed_readAnswer_iff {s : Istream UInt8} {segments : List Bytes}
    (read : readAnswer w prefixUri s segments = .ok (.respond res)) :
    Framed res ↔ ∀ name ∈ lineNames (({ s with
        buffer := (readUntil (crlf ++ crlf) s.buffer segments).1 } : Istream UInt8).lines LF),
      IsLengthName name → name = lit "Content-Length" := by
  simp only [readAnswer] at read
  split at read
  · cases read
  · rename_i r content copied
    obtain rfl := Outcome.respond.inj (Except.ok.inj read)
    have names := mem_addHeaders copied
    have other : ¬ IsLengthName (lit "Transfer-Encoding") := by decide
    rw [framed_relayed_iff]
    constructor
    · intro only name hname announced
      refine only name ((names name).mpr (.inr ⟨hname, ?_⟩)) announced
      rintro rfl
      exact other announced
    · intro clean name hname announced
      rcases (names name).mp hname with old | ⟨copied, -⟩
      · exact only_empty .OK name old announced
      · exact clean name copied announced

private theorem framed_readResponse_iff {segments : List Bytes}
    (read : readResponse w prefixUri segments = .ok (.respond res)) :
    Framed res ↔ Clean segments := by
  have refused : ∀ {r : Response}, Framed r → replyNames segments = [] → r = res →
      (Framed res ↔ Clean segments) := by
    rintro r framed none rfl
    exact iff_of_true framed (by simp [Clean, none])
  simp only [readResponse] at read
  split_ifs at read with unread redirect ok missing
  · refine refused framed_throw400Error ?_ (Outcome.respond.inj (Except.ok.inj read))
    simp only [replyNames]
    rw [if_pos (.inl unread)]
  · have other : (readStatus (readUntil crlf [] segments).1).2.1 ≠ 200 := by omega
    split at read
    · cases read
    · refine refused framed_throw400Error ?_ (Outcome.respond.inj (Except.ok.inj read))
      simp only [replyNames]
      rw [if_pos (.inr other)]
    · cases read
  · rw [framed_readAnswer_iff read, Clean, replyNames]
    simp only
    rw [if_neg (by simp only [ok, ne_eq, not_true, or_false]; exact unread)]
  · refine refused framed_dated404 ?_ (Outcome.respond.inj (Except.ok.inj read))
    simp only [replyNames]
    rw [if_pos (.inr ok)]
  · refine refused framed_throw400Error ?_ (Outcome.respond.inj (Except.ok.inj read))
    simp only [replyNames]
    rw [if_pos (.inr ok)]

private theorem framed_or_relays_sendRequest (env : Env) (h : ReverseProxyRequestHandler) {n : Nat}
    {req : Request} {host : Bytes}
    (sent : sendRequest env.net h env.world n req host = some (.ok res)) :
    Framed res ∨ ∃ segments, Relays env res segments := by
  induction n generalizing req host with
  | zero => cases sent
  | succ n ih =>
      rw [sendRequest_eq] at sent
      split at sent
      · cases sent
      · split at sent
        · obtain rfl := Except.ok.inj (Option.some.inj sent)
          exact .inl framed_throw400Error
        · rename_i segments answered
          split at sent
          · cases sent
          · rename_i r read
            obtain rfl := Except.ok.inj (Option.some.inj sent)
            exact .inr ⟨segments, h.prefixUri, host, req, answered, read⟩
          · rename_i location _
            simp only [handleRedirect] at sent
            split_ifs at sent
            · obtain rfl := Except.ok.inj (Option.some.inj sent)
              exact .inl framed_throw400Error
            · exact ih sent

private theorem framed_or_relays_proxy (env : Env) (h : ReverseProxyRequestHandler) {req : Request}
    (answered : (env.proxy h).handleRequest env.world req = .ok res) :
    Framed res ∨ ∃ segments, Relays env res segments := by
  simp only [Env.proxy] at answered
  cases hresult : Wnza.Handler.ProxyReading.handleRequest env.net h env.world env.rounds req with
  | none =>
      rw [hresult] at answered
      cases answered
  | some result =>
      rw [hresult, Option.getD_some] at answered
      subst answered
      simp only [Wnza.Handler.ProxyReading.handleRequest] at hresult
      split_ifs at hresult
      · obtain rfl := Except.ok.inj (Option.some.inj hresult)
        exact .inl framed_throw400Error
      · split at hresult
        · cases hresult
        · split at hresult
          · obtain rfl := Except.ok.inj (Option.some.inj hresult)
            exact .inl framed_make404Error
          · exact framed_or_relays_sendRequest env h hresult

end Proxy

private theorem framed_or_relays (env : Env) :
    OfClasses env.status env.proxy (fun handler => ∀ req res,
      handler.handleRequest env.world req = .ok res →
        Framed res ∨ ∃ segments, Relays env res segments) := by
  refine ⟨?_, ?_, ?_, ?_, ?_, ?_⟩
  · intro req res answered
    obtain rfl := Except.ok.inj answered
    exact .inl (framed_echoResponse req)
  · intro req res answered
    obtain rfl := Except.ok.inj answered
    exact .inl (framed_healthResponse req)
  · intro req res answered
    obtain rfl := Except.ok.inj answered
    exact .inl framed_make404Error
  · intro h req res answered
    obtain rfl := Except.ok.inj answered
    exact .inl (framed_static h req)
  · intro req res answered
    obtain rfl := Except.ok.inj answered
    exact .inl (framed_statusResponse _ _)
  · intro h req res answered
    exact framed_or_relays_proxy env h answered

section Runs

variable {config : NginxConfig} {calls : List Call} {cache : Cache}

private theorem Spoiled.concat {res : Response} (h : Spoiled calls res) (c : Call) :
    Spoiled (calls ++ [c]) res := by
  obtain ⟨d, hd, spoiled⟩ := h
  exact ⟨d, List.mem_append_left _ hd, spoiled⟩

def Accounted (calls : List Call) (cache : Cache) : Prop :=
  (∀ c ∈ calls, Framed c.response ∨ Spoiled calls c.response) ∧
    ∀ (uri : Bytes) res, cache[uri]? = some res → Framed res ∨ Spoiled calls res

private theorem framed_or_spoiled_call {env : Env} {locations : Locations} {req : Request}
    {res : Response} {after : Cache}
    (stored : ∀ (uri : Bytes) r, cache[uri]? = some r → Framed r ∨ Spoiled calls r)
    (built : locationHandlers env.status env.proxy config = .ok locations)
    (returned : (processReq locations env.world req cache).result = .ok (res, after)) :
    Framed res ∨ Spoiled
      (calls ++ [⟨env, locations, req, processReq locations env.world req cache, res⟩]) res := by
  obtain ⟨hit, -⟩ | ⟨fresh, unrouted, -⟩ | ⟨-, -, key, handler, -, found, answered, -⟩ :=
    processReq_ok returned
  · have entry : cache[req.uri]? = some res := by
      rw [cached] at hit
      split_ifs at hit
      exact hit
    exact (stored req.uri res entry).imp_right (fun h => h.concat _)
  · rw [processReq_of_unrouted env.world fresh unrouted, refuse] at returned
    obtain ⟨rfl, -⟩ := Prod.mk.inj (Except.ok.inj returned)
    exact .inl framed_make400Error
  · -- only what the proxy makes of a reply can fail, and then this call is the reason
    rcases (framed_or_relays env).table built key handler found req res answered with
      framed | ⟨segments, relays⟩
    · exact .inl framed
    · obtain ⟨prefixUri, host, asked, delivered, read⟩ := relays
      by_cases clean : Clean segments
      · exact .inl ((framed_readResponse_iff read).mpr clean)
      · exact .inr ⟨_, List.mem_append_right _ List.mem_cons_self, segments,
          ⟨prefixUri, host, asked, delivered, read⟩, clean⟩

private theorem accounted_of_run (run : Run config calls cache) : Accounted calls cache := by
  induction run with
  | start => exact ⟨by simp, by simp⟩
  | @call past cache after env locations req res _ built returned ih =>
      obtain ⟨answered, stored⟩ := ih
      have fresh := framed_or_spoiled_call stored built returned
      have old : ∀ (uri : Bytes) r, cache[uri]? = some r → Framed r ∨ Spoiled
          (past ++ [⟨env, locations, req, processReq locations env.world req cache, res⟩]) r :=
        fun uri r entry => (stored uri r entry).imp_right (fun h => h.concat _)
      refine ⟨?_, fun uri r entry => ?_⟩
      · exact forall_mem_concat
          (fun c hc => (answered c hc).imp_right (fun h => h.concat _)) fresh
      · obtain ⟨-, rfl⟩ | ⟨-, -, rfl⟩ | ⟨-, -, key, handler, -, -, -, rfl⟩ := processReq_ok returned
        · exact old uri r entry
        · exact old uri r entry
        · rw [Std.ExtTreeMap.getElem?_insert] at entry
          split_ifs at entry
          · obtain rfl := Option.some.inj entry
            exact fresh
          · exact old uri r entry

private theorem Spoiled.not_framed {res : Response} (h : Spoiled calls res) : ¬ Framed res := by
  obtain ⟨c, -, segments, ⟨prefixUri, host, req, -, read⟩, unclean⟩ := h
  rw [framed_readResponse_iff read]
  exact unclean

end Runs

/-- In every run of requests to handlers of all classes, an answer is framed exactly if the proxy
has not made it of a reply that spells the name of the length in another way; so all answers are
framed where the hosts give no such replies. -/
theorem responses_framed (config : NginxConfig) (calls : List Call) (cache : Cache)
    (run : Run config calls cache) :
    (∀ c ∈ calls, Framed c.response ↔ ¬ Spoiled calls c.response) ∧
      ((∀ c ∈ calls, ∀ host req segments, c.env.net host req = some segments → Clean segments) →
        ∀ c ∈ calls, Framed c.response) := by
  have characterised : ∀ c ∈ calls, Framed c.response ↔ ¬ Spoiled calls c.response := by
    intro c hc
    constructor
    · intro framed spoiled
      exact spoiled.not_framed framed
    · intro unspoiled
      exact ((accounted_of_run run).1 c hc).resolve_right unspoiled
  refine ⟨characterised, fun clean c hc => (characterised c hc).mpr ?_⟩
  rintro ⟨d, hd, segments, ⟨prefixUri, host, req, delivered, -⟩, unclean⟩
  exact unclean (clean d hd host req segments delivered)

/-- The configuration `location "/p/" ProxyHandler { dest "http://up/"; }`. -/
def proxyConfig : NginxConfig :=
  ⟨[.mk [lit "location", lit "\"/p/\"", lit "ProxyHandler"]
    (some [.mk [lit "dest", lit "\"http://up/\""] none])]⟩

/-- Every host gives this reply. -/
def upstream (reply : Bytes) : Env := ⟨⟨fun _ => none, []⟩, fun _ _ => some [reply], 1, [], []⟩

def proxiedRequest : Request := ⟨.GET, lit "/p/", lit "HTTP/1.0", ∅, []⟩

private theorem run_upstream {reply : Bytes} {res : Response}
    (read : readResponse (upstream reply).world (lit "/p/") [reply] = .ok (.respond res)) :
    ∃ c cache, Run proxyConfig [c] cache ∧ c.env = upstream reply ∧ c.response = res := by
  let h : ReverseProxyRequestHandler := ⟨lit "/p/", lit "http://up/", lit "80", lit "up", lit "/"⟩
  have built : locationHandlers (upstream reply).status (upstream reply).proxy proxyConfig =
      .ok ((∅ : Locations).insertIfNew (lit "/p/") ((upstream reply).proxy h)) := rfl
  have asked : Wnza.Handler.ProxyReading.handleRequest (upstream reply).net h
      (upstream reply).world 1 proxiedRequest =
        sendRequest (upstream reply).net h (upstream reply).world 1
          (getProxyRequest proxiedRequest ⟨lit "up", lit "/", []⟩) (lit "up") := rfl
  have answered : ((upstream reply).proxy h).handleRequest (upstream reply).world proxiedRequest =
      .ok res := by
    have sent := @sendRequest_succ (upstream reply).net h (upstream reply).world
      (getProxyRequest proxiedRequest ⟨lit "up", lit "/", []⟩) (lit "up") [reply] (by decide) rfl 0
    rw [read] at sent
    change (Wnza.Handler.ProxyReading.handleRequest (upstream reply).net h
      (upstream reply).world 1 proxiedRequest).getD _ = _
    rw [asked, sent]
    rfl
  have routed : route ((∅ : Locations).insertIfNew (lit "/p/") ((upstream reply).proxy h))
      proxiedRequest.uri = .ok (some (lit "/p/")) := rfl
  have found : ((∅ : Locations).insertIfNew (lit "/p/") ((upstream reply).proxy h))[lit "/p/"]? =
      some ((upstream reply).proxy h) := rfl
  have served := (@processReq_of_routed _ proxiedRequest ∅ _ _ (upstream reply).world (by decide)
    rfl routed found).2
  rw [answered] at served
  exact ⟨_, _, .call .start built served, rfl, rfl⟩

def plainReply : Bytes := lit "HTTP/1.1 200 OK\r\nContent-Length: 9\r\n\r\nhi"

def lowerReply : Bytes := lit "HTTP/1.1 200 OK\r\ncontent-length: 9\r\n\r\nhi"

theorem responses_framed_plain :
    ∃ c cache, Run proxyConfig [c] cache ∧ c.response.body = lit "hi" ∧ Framed c.response := by
  obtain ⟨c, cache, run, henv, hres⟩ := @run_upstream plainReply _ rfl
  have clean : Clean [plainReply] := by
    have names : replyNames [plainReply] = [lit "Content-Length"] := by decide
    intro name hname _
    rw [names] at hname
    exact List.mem_singleton.mp hname
  refine ⟨c, cache, run, by rw [hres]; rfl, ?_⟩
  refine (responses_framed proxyConfig [c] cache run).2 ?_ c List.mem_cons_self
  intro d hd host req segments delivered
  rw [List.mem_singleton.mp hd, henv] at delivered
  rw [← Option.some.inj delivered]
  exact clean

/-- The header of the reply stays beside the one that the proxy adds. -/
theorem length_announced_twice :
    ∃ c cache, Run proxyConfig [c] cache ∧
      lengthHeaders c.response =
        [(lit "Content-Length", lit "2"), (lit "content-length", lit "9")] ∧
      ¬ Framed c.response := by
  obtain ⟨c, cache, run, -, hres⟩ := @run_upstream lowerReply _ rfl
  have twice : lengthHeaders c.response =
      [(lit "Content-Length", lit "2"), (lit "content-length", lit "9")] := by
    rw [hres]
    rfl
  refine ⟨c, cache, run, twice, ?_⟩
  rintro ⟨name, once⟩
  rw [twice] at once
  have lengths := congrArg List.length once
  simp at lengths

end Wnza.Server.Lengths
