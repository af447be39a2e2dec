/- GID: Wnza/Handler/Forwarding
   generality: I
   source: src/reverse_proxy_request_handler.cc (constructor, handle_request, parse_url,
     get_proxy_request)
   digest: Where a request below a proxy location goes, and what becomes of the parts of a URL. -/

import Wnza.Handler.ProxyReading

set_option autoImplicit false
set_option relaxedAutoImplicit false

namespace Wnza.Handler.Forwarding

open Wnza.Foundation.InputStream
open Wnza.Foundation.Substring
open Wnza.Http.Text
open Wnza.Http.Parser
open Wnza.Config.Tree
open Wnza.Handler.Basic
open Wnza.Handler.ProxyReading
open Wnza.Handler.ProxyTarget
open Wnza.Handler.ReverseProxy
open Wnza.Handler.Static

/-- An absolute URL, written `scheme://host[path][?query]`. -/
structure AbsoluteUrl where
  scheme : Bytes
  host : Bytes
  path : Bytes
  query : Option Bytes
  scheme_plain : COLON ∉ scheme
  host_plain : host ≠ [] ∧ SLASH ∉ host ∧ QUESTION ∉ host
  path_rooted : path = [] ∨ path.head? = some SLASH
  path_plain : QUESTION ∉ path

namespace AbsoluteUrl

def queryText (u : AbsoluteUrl) : Bytes := u.query.elim [] (QUESTION :: ·)

def text (u : AbsoluteUrl) : Bytes :=
  u.scheme ++ lit "://" ++ (u.host ++ (u.path ++ u.queryText))

/-- What a request for the URL asks its host for. -/
def target (u : AbsoluteUrl) : Bytes :=
  (if u.path = [] then lit "/" else u.path) ++ u.queryText

private theorem queryText_of_none {u : AbsoluteUrl} (h : u.query = none) : u.queryText = [] := by
  rw [queryText, h]
  rfl

private theorem queryText_of_some {u : AbsoluteUrl} {query : Bytes} (h : u.query = some query) :
    u.queryText = QUESTION :: query := by
  rw [queryText, h]
  rfl

end AbsoluteUrl

/-- The request that `get_proxy_request` makes of the parsed URL goes to the host of the URL and
asks for its path and query. -/
def RequestedAsGiven (u : AbsoluteUrl) (req : Request) : Prop :=
  (getProxyRequest req (parseUrl u.text)).headers[lit "Host"]? = some (u.host.map tolower) ∧
    (getProxyRequest req (parseUrl u.text)).uri = u.target

/-- `handle_request` sends this client's request to the host, with the target, and whatever comes
back becomes its answer. -/
def Asks (h : ReverseProxyRequestHandler) (req : Request) (host target : Bytes) : Prop :=
  ∃ sent : Request, sent.method = req.method ∧ sent.uri = target ∧ sent.body = req.body ∧
    sent.headers[lit "Host"]? = some host ∧
    ∀ net w n, handleRequest net h w n req = sendRequest net h w n sent host

/-- A path with a slash appended when missing. -/
def slashed (path : Bytes) : Bytes :=
  if path.getLast? = some SLASH then path else path ++ lit "/"

private theorem ensureSlash_eq_slashed {s : Bytes} (hs : s ≠ []) :
    ensureSlash s = .ok (slashed s) := by
  rw [ensureSlash, if_neg hs, slashed]
  split_ifs <;> rfl

section Urls

private theorem parseUrl_scheme {scheme rest : Bytes} (hscheme : COLON ∉ scheme) :
    parseUrl (scheme ++ lit "://" ++ rest) =
      ⟨(rest.takeWhile (· ≠ SLASH)).map tolower,
        (rest.dropWhile (· ≠ SLASH)).takeWhile (· ≠ QUESTION),
        ((rest.dropWhile (· ≠ SLASH)).dropWhile (· ≠ QUESTION)).drop 1⟩ := by
  have marker : lit "://" = COLON :: lit "//" := rfl
  have here : find (lit "://") (lit "://" ++ rest) = some 0 := by
    rw [marker, List.cons_append, find, if_pos ⟨rest, rfl⟩]
  have found : find (lit "://") (scheme ++ lit "://" ++ rest) = some scheme.length := by
    rw [List.append_assoc, marker, find_append_of_notMem hscheme, ← marker, here]
    simp
  have behind : (scheme ++ lit "://" ++ rest).drop (scheme.length + 3) = rest :=
    List.drop_left' (by rw [List.length_append]; rfl)
  simp only [parseUrl, found, behind]

variable {host path tail : Bytes}

private theorem takeWhile_host (hhost : SLASH ∉ host) (hpath : path.head? = some SLASH) :
    (host ++ (path ++ tail)).takeWhile (· ≠ SLASH) = host ∧
      (host ++ (path ++ tail)).dropWhile (· ≠ SLASH) = path ++ tail := by
  obtain ⟨rest, rfl⟩ := List.head?_eq_some_iff.mp hpath
  have plain : ∀ c ∈ host, decide (c ≠ SLASH) = true :=
    fun c hc => decide_eq_true (ne_of_mem_of_not_mem hc hhost)
  exact ⟨takeWhile_append_stop plain (by simp), dropWhile_append_stop plain (by simp)⟩

private theorem parseUrl_path {u : AbsoluteUrl} (hpath : u.path.head? = some SLASH)
    (hquery : u.query = none) : parseUrl u.text = ⟨u.host.map tolower, u.path, []⟩ := by
  obtain ⟨first, behind⟩ := @takeWhile_host u.host u.path [] u.host_plain.2.1 hpath
  have plain : ∀ c ∈ u.path, decide (c ≠ QUESTION) = true :=
    fun c hc => decide_eq_true (ne_of_mem_of_not_mem hc u.path_plain)
  rw [AbsoluteUrl.text, parseUrl_scheme u.scheme_plain, AbsoluteUrl.queryText_of_none hquery, first,
    behind, List.append_nil,
    List.takeWhile_eq_self_iff.mpr plain, List.dropWhile_eq_nil_iff.mpr plain, List.drop_nil]

private theorem parseUrl_query {u : AbsoluteUrl} {query : Bytes} (hpath : u.path.head? = some SLASH)
    (hquery : u.query = some query) :
    parseUrl u.text = ⟨u.host.map tolower, u.path, query⟩ := by
  obtain ⟨first, behind⟩ := @takeWhile_host u.host u.path (QUESTION :: query) u.host_plain.2.1 hpath
  have plain : ∀ c ∈ u.path, decide (c ≠ QUESTION) = true :=
    fun c hc => decide_eq_true (ne_of_mem_of_not_mem hc u.path_plain)
  have stop : decide (QUESTION ≠ QUESTION) = false := by simp
  rw [AbsoluteUrl.text, parseUrl_scheme u.scheme_plain, AbsoluteUrl.queryText_of_some hquery,
    first, behind, takeWhile_append_stop plain stop, dropWhile_append_stop plain stop]
  rfl

private theorem parseUrl_bare {u : AbsoluteUrl} (hpath : u.path = []) :
    parseUrl u.text =
      ⟨(u.host ++ u.queryText.takeWhile (· ≠ SLASH)).map tolower,
        (u.queryText.dropWhile (· ≠ SLASH)).takeWhile (· ≠ QUESTION),
        ((u.queryText.dropWhile (· ≠ SLASH)).dropWhile (· ≠ QUESTION)).drop 1⟩ := by
  have plain : ∀ c ∈ u.host, decide (c ≠ SLASH) = true :=
    fun c hc => decide_eq_true (ne_of_mem_of_not_mem hc u.host_plain.2.1)
  rw [AbsoluteUrl.text, parseUrl_scheme u.scheme_plain, hpath, List.nil_append,
    List.takeWhile_append_of_pos plain, List.dropWhile_append_of_pos plain]

end Urls

private theorem getProxyRequest_host (req : Request) (dest : Url) :
    (getProxyRequest req dest).headers[lit "Host"]? = some dest.host := by
  simp only [getProxyRequest, Std.ExtTreeMap.getElem?_insert_self]

/-- A URL is requested as it is given exactly if it has a path and no query: the question mark is
lost, and an empty path stays empty. -/
theorem requestedAsGiven_iff (u : AbsoluteUrl) (req : Request) :
    RequestedAsGiven u req ↔ u.path ≠ [] ∧ u.query = none := by
  rw [RequestedAsGiven, getProxyRequest_host, Option.some.injEq]
  have uri : ∀ dest, (getProxyRequest req dest).uri = dest.path ++ dest.query := fun _ => rfl
  rw [uri]
  by_cases hpath : u.path = []
  · refine iff_of_false ?_ (fun h => h.1 hpath)
    rintro ⟨sameHost, sameUri⟩
    rw [parseUrl_bare hpath] at sameHost sameUri
    cases hquery : u.query with
    | none =>
        have noQuery := AbsoluteUrl.queryText_of_none hquery
        rw [AbsoluteUrl.target, if_pos hpath, noQuery] at sameUri
        cases sameUri
    | some query =>
        have given := AbsoluteUrl.queryText_of_some hquery
        have longer := congrArg List.length sameHost
        rw [given, List.takeWhile_cons_of_pos (by decide)] at longer
        simp only [List.length_map, List.length_append, List.length_cons] at longer
        omega
  · have rooted := u.path_rooted.resolve_left hpath
    cases hquery : u.query with
    | none =>
        have noQuery := AbsoluteUrl.queryText_of_none hquery
        rw [parseUrl_path rooted hquery, AbsoluteUrl.target, if_neg hpath, noQuery]
        exact iff_of_true ⟨rfl, rfl⟩ ⟨hpath, rfl⟩
    | some query =>
        have given := AbsoluteUrl.queryText_of_some hquery
        refine iff_of_false ?_ (by simp)
        rintro ⟨-, sameUri⟩
        rw [parseUrl_query rooted hquery, AbsoluteUrl.target, if_neg hpath, given] at sameUri
        have longer := congrArg List.length sameUri
        simp only [List.length_append, List.length_cons] at longer
        omega

/-- The URL `http://up/a?b`. -/
def queriedUrl : AbsoluteUrl where
  scheme := lit "http"
  host := lit "up"
  path := lit "/a"
  query := some (lit "b")
  scheme_plain := by decide
  host_plain := by decide
  path_rooted := .inr rfl
  path_plain := by decide

/-- A redirection to `http://up/a?b` asks for `/ab`. -/
theorem query_mark_lost :
    queriedUrl.text = lit "http://up/a?b" ∧ queriedUrl.target = lit "/a?b" ∧
      (getProxyRequest ⟨.GET, lit "/", lit "HTTP/1.0", ∅, []⟩ (parseUrl queriedUrl.text)).uri =
        lit "/ab" ∧
      ¬ RequestedAsGiven queriedUrl ⟨.GET, lit "/", lit "HTTP/1.0", ∅, []⟩ := by
  have asked : (getProxyRequest ⟨.GET, lit "/", lit "HTTP/1.0", ∅, []⟩
      (parseUrl queriedUrl.text)).uri = lit "/ab" := by decide
  refine ⟨by decide, by decide, asked, ?_⟩
  rintro ⟨-, given⟩
  rw [asked] at given
  revert given
  decide

section Requests

variable {h : ReverseProxyRequestHandler} {req : Request}

theorem target_below {rest : Bytes} (slash : h.prefixUri.getLast? = some SLASH)
    (huri : req.uri = h.prefixUri ++ rest) (unslashed : rest.getLast? ≠ some SLASH) :
    ∃ uri tail, ensureSlash req.uri = .ok uri ∧ find h.prefixUri uri = some 0 ∧
      uri.drop (0 + h.prefixUri.length - 1) = tail ∧
      (if tail ≠ lit "/" then tail.dropLast else tail) = SLASH :: rest := by
  obtain ⟨stem, hstem⟩ := List.getLast?_eq_some_iff.mp slash
  have found : ∀ more, find h.prefixUri (h.prefixUri ++ more) = some 0 := by
    intro more
    exact find_eq_some_iff.mpr ⟨Nat.zero_le _, List.prefix_append _ _, by simp⟩
  have position : 0 + h.prefixUri.length - 1 = stem.length := by
    rw [hstem, List.length_append, List.length_singleton]
    omega
  have behind : ∀ more, (h.prefixUri ++ more).drop stem.length = SLASH :: more := by
    intro more
    rw [hstem, List.append_assoc, List.drop_left, List.singleton_append]
  have uri : req.uri ≠ [] := by
    rw [huri, hstem]
    simp
  rw [ensureSlash_eq_slashed uri, huri, position]
  by_cases hrest : rest = []
  · -- the URI is the prefix, which has its slash already
    subst hrest
    have kept : slashed (h.prefixUri ++ []) = h.prefixUri ++ [] := by
      rw [slashed, List.append_nil, if_pos slash]
    exact ⟨_, _, by rw [kept], found [], behind [], rfl⟩
  · have appended : slashed (h.prefixUri ++ rest) = h.prefixUri ++ (rest ++ lit "/") := by
      rw [slashed, List.getLast?_append_of_ne_nil _ hrest, if_neg unslashed, List.append_assoc]
    have proper : SLASH :: (rest ++ lit "/") ≠ lit "/" := by
      intro same
      have := congrArg List.length same
      simp [lit] at this
    have cut : (SLASH :: (rest ++ lit "/")).dropLast = SLASH :: rest := by
      rw [← List.cons_append]
      exact List.dropLast_concat
    refine ⟨_, _, by rw [appended], found _, behind _, ?_⟩
    rw [if_pos proper, cut]

private theorem asks_below {rest : Bytes} (known : h.host ≠ [] ∧ h.path ≠ [])
    (slash : h.prefixUri.getLast? = some SLASH) (huri : req.uri = h.prefixUri ++ rest)
    (unslashed : rest.getLast? ≠ some SLASH) : Asks h req h.host (SLASH :: rest) := by
  obtain ⟨uri, tail, ended, found, behind, target⟩ := target_below slash huri unslashed
  refine ⟨getProxyRequest req ⟨h.host, SLASH :: rest, []⟩, rfl, List.append_nil _, rfl,
    getProxyRequest_host _ _, fun net w n => ?_⟩
  simp only [handleRequest, if_neg (not_or.mpr known), ended, found, behind, target]

private theorem Asks.unique {host host' target target' : Bytes} (valid : req.method ≠ .INVALID)
    (asked : Asks h req host target) (asked' : Asks h req host' target') :
    host = host' ∧ target = target' := by
  obtain ⟨sent, method, huri, -, -, answer⟩ := asked
  obtain ⟨sent', method', huri', -, -, answer'⟩ := asked'
  by_contra different
  -- a network in which the one host is not found and all others have no such page
  let net : Network := fun x r =>
    if x = host ∧ r.uri = target then none else some [lit "HTTP/1.1 404 Not Found\r\n"]
  let w : World := ⟨fun _ => none, []⟩
  have unknown : net host sent = none := if_pos ⟨rfl, huri⟩
  have missing : net host' sent' = some [lit "HTTP/1.1 404 Not Found\r\n"] := by
    refine if_neg ?_
    rintro ⟨sameHost, sameUri⟩
    exact different ⟨sameHost.symm, (huri'.symm.trans sameUri).symm⟩
  have first : sendRequest net h w 1 sent host = some (.ok (throw400Error w)) :=
    sendRequest_unreached (method ▸ valid) unknown 0
  have second : sendRequest net h w 1 sent' host' =
      some (.ok (Response.makeDateServernameHeaders w (Response.make404Error w .empty))) := by
    rw [sendRequest_succ (method' ▸ valid) missing]
    rfl
  have same := first.symm.trans ((answer net w 1).symm.trans ((answer' net w 1).trans second))
  cases congrArg Response.code (Except.ok.inj (Option.some.inj same))

end Requests

section Destination

variable {config : NginxConfig} {prefixUri : Bytes} {h : ReverseProxyRequestHandler}
  {u : AbsoluteUrl} {q q' : UInt8}

private theorem slashed_append {a b : Bytes} (hb : b ≠ []) : slashed (a ++ b) = a ++ slashed b := by
  rw [slashed, slashed, List.getLast?_append_of_ne_nil _ hb]
  split_ifs
  · rfl
  · rw [List.append_assoc]

private theorem slashed_of_ends {s : Bytes} (hs : s.getLast? = some SLASH) :
    slashed s = s := if_pos hs

private theorem length_le_slashed (s : Bytes) : s.length ≤ (slashed s).length := by
  rw [slashed]
  split_ifs
  · exact le_rfl
  · rw [List.length_append]
    omega

private theorem unquoted_quoted (s : Bytes) : unquoted (q :: s ++ [q']) = .ok s := by
  rw [unquoted, if_neg (by simp)]
  simp

private theorem make_inv (made : ReverseProxyRequestHandler.make config prefixUri = .ok h)
    (quoted : config.getValueFromStatement (lit "dest") = .ok (q :: u.text ++ [q'])) :
    ensureSlash prefixUri = .ok h.prefixUri ∧
      h.host = (parseUrl (slashed u.text)).host ∧ h.path = (parseUrl (slashed u.text)).path := by
  have full : u.text ≠ [] := by
    rw [AbsoluteUrl.text]
    exact List.append_ne_nil_of_left_ne_nil (List.append_ne_nil_of_right_ne_nil _ (by decide)) _
  unfold ReverseProxyRequestHandler.make at made
  rw [quoted] at made
  cases hstart : ensureSlash prefixUri with
  | error e => simp [hstart, Bind.bind, Except.bind] at made
  | ok start =>
      cases hport : config.getValueFromStatement (lit "port") with
      | error e =>
          simp only [hstart, unquoted_quoted, ensureSlash_eq_slashed full, hport, Bind.bind,
            Except.bind] at made
          cases made
      | ok port =>
          simp only [hstart, unquoted_quoted, ensureSlash_eq_slashed full, hport, Bind.bind,
            Except.bind] at made
          obtain rfl := Except.ok.inj made
          exact ⟨rfl, rfl, rfl⟩

private theorem parseUrl_slashed (hpath : u.path.head? = some SLASH) (hquery : u.query = none) :
    parseUrl (slashed u.text) = ⟨u.host.map tolower, slashed u.path, []⟩ := by
  obtain ⟨base, hbase⟩ := List.head?_eq_some_iff.mp hpath
  have rooted : (slashed u.path).head? = some SLASH := by
    rw [slashed, hbase]
    split_ifs <;> rfl
  have plain : QUESTION ∉ slashed u.path := by
    have none := u.path_plain
    rw [slashed]
    split_ifs
    · exact none
    · rw [List.mem_append, not_or]
      exact ⟨none, by decide⟩
  let v : AbsoluteUrl :=
    { u with path := slashed u.path, path_rooted := .inr rooted, path_plain := plain }
  have text : slashed u.text = v.text := by
    have rest : u.path ++ u.queryText = u.path := by
      rw [AbsoluteUrl.queryText_of_none hquery, List.append_nil]
    have rest' : v.path ++ v.queryText = slashed u.path := by
      rw [AbsoluteUrl.queryText_of_none (u := v) hquery, List.append_nil]
    rw [AbsoluteUrl.text, AbsoluteUrl.text, rest, rest', ← List.append_assoc,
      slashed_append (by rw [hbase]; simp), List.append_assoc]
  rw [text]
  exact parseUrl_path rooted hquery

/-- A request below the location is asked for below the path of the destination exactly if that
path is a slash: the path is stored and never used. -/
theorem asks_below_destination_iff (config : NginxConfig) (prefixUri : Bytes)
    (h : ReverseProxyRequestHandler)
    (made : ReverseProxyRequestHandler.make config prefixUri = .ok h) (u : AbsoluteUrl)
    (base : Bytes) (hpath : u.path = SLASH :: base) (hquery : u.query = none) (q q' : UInt8)
    (quoted : config.getValueFromStatement (lit "dest") = .ok (q :: u.text ++ [q']))
    (slash : prefixUri.getLast? = some SLASH) (rest : Bytes)
    (unslashed : rest.getLast? ≠ some SLASH) (req : Request) (valid : req.method ≠ .INVALID)
    (huri : req.uri = prefixUri ++ rest) :
    Asks h req (u.host.map tolower) (slashed (SLASH :: base) ++ rest) ↔ base = [] := by
  have rooted : u.path.head? = some SLASH := by rw [hpath]; rfl
  obtain ⟨start, host, path⟩ := make_inv made quoted
  rw [parseUrl_slashed rooted hquery] at host path
  have sameStart : h.prefixUri = prefixUri := by
    have hne : prefixUri ≠ [] := by
      rintro rfl
      cases slash
    rw [ensureSlash_eq_slashed hne, slashed_of_ends slash] at start
    exact (Except.ok.inj start).symm
  have known : h.host ≠ [] ∧ h.path ≠ [] := by
    rw [host, path]
    refine ⟨by simpa using u.host_plain.1, fun none => ?_⟩
    have long := length_le_slashed u.path
    rw [show slashed u.path = [] from none, hpath] at long
    simp at long
  have asked := @asks_below h req rest known (by rwa [sameStart]) (by rwa [sameStart]) unslashed
  rw [host] at asked
  constructor
  · intro below
    have same := (Asks.unique valid below asked).2
    have length := congrArg List.length same
    have long := length_le_slashed (SLASH :: base)
    rw [List.length_append, List.length_cons] at length
    rw [List.length_cons] at long
    exact List.length_eq_zero_iff.mp (by omega)
  · rintro rfl
    exact asked

end Destination

/-- The URL `http://up/`. -/
def rootUrl : AbsoluteUrl where
  scheme := lit "http"
  host := lit "up"
  path := lit "/"
  query := none
  scheme_plain := by decide
  host_plain := by decide
  path_rooted := .inr rfl
  path_plain := by decide

theorem asks_below_root :
    ReverseProxyRequestHandler.make ⟨[.mk [lit "dest", lit "\"http://up/\""] none]⟩ (lit "/p/") =
        .ok ⟨lit "/p/", lit "http://up/", lit "80", lit "up", lit "/"⟩ ∧
      Asks ⟨lit "/p/", lit "http://up/", lit "80", lit "up", lit "/"⟩
        ⟨.GET, lit "/p/a", lit "HTTP/1.0", ∅, []⟩ (lit "up") (lit "/a") := by
  have made : ReverseProxyRequestHandler.make ⟨[.mk [lit "dest", lit "\"http://up/\""] none]⟩
      (lit "/p/") = .ok ⟨lit "/p/", lit "http://up/", lit "80", lit "up", lit "/"⟩ := rfl
  exact ⟨made, (asks_below_destination_iff _ _ _ made rootUrl [] rfl rfl '"'.toUInt8 '"'.toUInt8
    rfl (by decide) (lit "a") (by decide) ⟨.GET, lit "/p/a", lit "HTTP/1.0", ∅, []⟩ (by decide)
    rfl).mpr rfl⟩

/-- Below a destination with a path its host is asked for what is not below that path. -/
theorem destination_path_ignored :
    ReverseProxyRequestHandler.make
        ⟨[.mk [lit "dest", lit "\"https://www.google.com/images\""] none]⟩ (lit "/proxy2/") =
        .ok ⟨lit "/proxy2/", lit "https://www.google.com/images/", lit "80",
          lit "www.google.com", lit "/images/"⟩ ∧
      Asks ⟨lit "/proxy2/", lit "https://www.google.com/images/", lit "80",
          lit "www.google.com", lit "/images/"⟩
        ⟨.GET, lit "/proxy2/a", lit "HTTP/1.0", ∅, []⟩ (lit "www.google.com") (lit "/a") ∧
      ¬ Asks ⟨lit "/proxy2/", lit "https://www.google.com/images/", lit "80",
          lit "www.google.com", lit "/images/"⟩
        ⟨.GET, lit "/proxy2/a", lit "HTTP/1.0", ∅, []⟩ (lit "www.google.com")
        (lit "/images/a") := by
  have asked : Asks ⟨lit "/proxy2/", lit "https://www.google.com/images/", lit "80",
      lit "www.google.com", lit "/images/"⟩
        ⟨.GET, lit "/proxy2/a", lit "HTTP/1.0", ∅, []⟩ (lit "www.google.com") (lit "/a") :=
    @asks_below _ _ (lit "a") ⟨by decide, by decide⟩ (by decide) rfl (by decide)
  refine ⟨rfl, asked, fun below => ?_⟩
  have same := (Asks.unique (by decide) below asked).2
  revert same
  decide

end Wnza.Handler.Forwarding
