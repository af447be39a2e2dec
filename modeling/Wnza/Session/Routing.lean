/- GID: Wnza/Session/Routing
   generality: I
   source: src/session.cc, README.md
   digest: Longest-prefix routing, and the location maps on which the dispatch loop achieves it. -/

import Wnza.Session.Dispatch

set_option autoImplicit false
set_option relaxedAutoImplicit false

namespace Wnza.Session.Routing

open Wnza.Foundation.Longest
open Wnza.Http.Text
open Wnza.Http.Parser
open Wnza.Handler.Basic
open Wnza.Handler.Echo
open Wnza.Session.Dispatch

def trimmed (key : Bytes) : Bytes := if key.getLast? = some SLASH then key.dropLast else key

/-- The URI is the trimmed key, or goes on after it with a slash. -/
def Matches (uri key : Bytes) : Prop := uri = trimmed key ∨ trimmed key ++ [SLASH] <+: uri

instance (uri key : Bytes) : Decidable (Matches uri key) := inferInstanceAs (Decidable (_ ∨ _))

/-- A location that matches, and no longer one does. -/
structure LongestMatch (locations : Locations) (uri key : Bytes) : Prop where
  mem : key ∈ locations
  matches_uri : Matches uri key
  longest : ∀ k ∈ locations, Matches uri k → k.length ≤ key.length

/-- The handler of the longest matching location is invoked once; without a matching location
none is invoked and the answer is 400. -/
structure LongestPrefixRouted (locations : Locations) (uri : Bytes) (p : Processed) : Prop where
  matched : ∀ key, LongestMatch locations uri key → p.invoked = [key]
  unmatched : (∀ key ∈ locations, ¬ Matches uri key) →
    p.invoked = [] ∧ ∃ res cache, p.result = .ok (res, cache) ∧ res.code = .BAD_REQ

/-- The longest matching location is not lost by the loop, and each location that the loop
accepts without a match is behind a matching one: shorter, or as long and later in the map. -/
structure Separated (locations : Locations) (uri : Bytes) : Prop where
  kept : ∀ key, LongestMatch locations uri key → uri = key ∨ key.getLast? = some SLASH
  outrun : ∀ k ∈ locations, Accepted uri k → ¬ Matches uri k →
    ∃ key ∈ locations, Matches uri key ∧
      (k.length < key.length ∨ k.length = key.length ∧ compare key k = .lt)

section Keys

variable {uri key stem : Bytes} {c : UInt8}

private theorem accepted_concat : Accepted uri (stem ++ [c]) ↔
    (stem.length + 1 < uri.length → uri[stem.length]? = some SLASH) ∧
      uri.take stem.length = stem := by
  simp [Accepted]

private theorem matches_concat (h : Matches uri (stem ++ [c])) :
    uri.take stem.length = stem ∧
      (c = SLASH ∧ (uri = stem ∨ uri[stem.length]? = some SLASH) ∨
        c ≠ SLASH ∧ uri[stem.length]? = some c) := by
  by_cases hc : c = SLASH
  · have stemmed : trimmed (stem ++ [c]) = stem := by simp [trimmed, hc]
    rw [Matches, stemmed] at h
    rcases h with rfl | ⟨rest, rfl⟩
    · exact ⟨List.take_length, .inl ⟨hc, .inl rfl⟩⟩
    · exact ⟨by simp, .inl ⟨hc, .inr (by simp)⟩⟩
  · have whole : trimmed (stem ++ [c]) = stem ++ [c] := by simp [trimmed, hc]
    rw [Matches, whole] at h
    rcases h with rfl | ⟨rest, rfl⟩
    · exact ⟨by simp, .inr ⟨hc, by simp⟩⟩
    · exact ⟨by simp, .inr ⟨hc, by simp⟩⟩

private theorem accepted_iff_of_matches (hkey : key ≠ []) (h : Matches uri key) :
    Accepted uri key ↔ uri = key ∨ key.getLast? = some SLASH := by
  cases key using List.reverseRecOn with
  | nil => exact absurd rfl hkey
  | append_singleton stem c _ =>
      obtain ⟨htake, hend⟩ := matches_concat h
      rw [accepted_concat]
      constructor
      · rintro ⟨hslash, -⟩
        rcases hend with ⟨rfl, -⟩ | ⟨hc, hget⟩
        · exact .inr (by simp)
        · left
          have whole : trimmed (stem ++ [c]) = stem ++ [c] := by simp [trimmed, hc]
          rw [Matches, whole] at h
          rcases h with rfl | ⟨rest, rfl⟩
          · rfl
          · have slash := hslash (by simp)
            rw [hget] at slash
            exact absurd (Option.some.inj slash) hc
      · intro kept
        refine ⟨fun hlt => ?_, htake⟩
        rcases kept with rfl | hlast
        · simp at hlt
        · have hc : c = SLASH := by simpa using hlast
          rcases hend with ⟨-, rfl | hget⟩ | ⟨hne, -⟩
          · omega
          · exact hget
          · exact absurd hc hne

private theorem eq_of_matches {key' : Bytes} (hkey : key ≠ []) (hkey' : key' ≠ [])
    (h : Matches uri key) (h' : Matches uri key') (hlen : key.length = key'.length) :
    key = key' := by
  cases key using List.reverseRecOn with
  | nil => exact absurd rfl hkey
  | append_singleton stem c _ =>
      cases key' using List.reverseRecOn with
      | nil => exact absurd rfl hkey'
      | append_singleton stem' c' _ =>
          obtain ⟨htake, hend⟩ := matches_concat h
          obtain ⟨htake', hend'⟩ := matches_concat h'
          have hstem : stem.length = stem'.length := by simpa using hlen
          obtain rfl : stem = stem' := by rw [← htake, hstem, htake']
          have last : c = c' := by
            rcases hend with ⟨rfl, hget⟩ | ⟨hc, hget⟩
            · rcases hend' with ⟨rfl, -⟩ | ⟨hc', hget'⟩
              · rfl
              · rcases hget with rfl | hget
                · simp at hget'
                · exact Option.some.inj (hget.symm.trans hget')
            · rcases hend' with ⟨rfl, rfl | hget'⟩ | ⟨hc', hget'⟩
              · simp at hget
              · exact Option.some.inj (hget.symm.trans hget')
              · exact Option.some.inj (hget.symm.trans hget')
          rw [last]

end Keys

section Maps

variable {locations : Locations} {uri key : Bytes}

theorem mem_keys_filter {P : Bytes → Prop} [DecidablePred P] :
    key ∈ locations.keys.filter (fun key => P key) ↔ key ∈ locations ∧ P key := by
  rw [List.mem_filter, Std.ExtTreeMap.mem_keys, decide_eq_true_iff]

private theorem sorted_keys_filter {P : Bytes → Prop} [DecidablePred P] :
    (locations.keys.filter (fun key => P key)).Pairwise (fun a b => compare a b = .lt) :=
  Std.ExtTreeMap.ordered_keys.sublist List.filter_sublist

theorem route_eq_some_iff (hkeys : ∀ key ∈ locations, key ≠ []) :
    route locations uri = .ok (some key) ↔
      Wins List.length (fun a b => compare a b = .lt) key
        (locations.keys.filter (fun key => Accepted uri key)) := by
  have asymm : ∀ a b : Bytes, compare a b = .lt → ¬ compare b a = .lt := by
    intro a b hab hba
    rw [@Std.OrientedCmp.eq_swap Bytes compare _ b a, hab] at hba
    cases hba
  rw [route_eq hkeys, Except.ok.injEq, firstLongest_eq_some_iff asymm sorted_keys_filter]

theorem route_eq_none_iff (hkeys : ∀ key ∈ locations, key ≠ []) :
    route locations uri = .ok none ↔ ∀ key ∈ locations, ¬ Accepted uri key := by
  rw [route_eq hkeys, Except.ok.injEq, firstLongest_eq_none_iff, List.filter_eq_nil_iff]
  simp [Std.ExtTreeMap.mem_keys]

private theorem exists_longestMatch (h : ∃ key ∈ locations, Matches uri key) :
    ∃ key, LongestMatch locations uri key := by
  obtain ⟨key, candidate⟩ := h
  obtain ⟨best, hbest⟩ := exists_firstLongest List.length
    (List.ne_nil_of_mem (mem_keys_filter.mpr candidate))
  obtain ⟨hin, hlongest⟩ := wins_of_firstLongest sorted_keys_filter hbest
  obtain ⟨hmem, hmatch⟩ := mem_keys_filter.mp hin
  refine ⟨best, hmem, hmatch, ?_⟩
  intro k hk hkm
  rcases hlongest k (mem_keys_filter.mpr ⟨hk, hkm⟩) with hlt | ⟨heq, -⟩
  · omega
  · omega

theorem mem_of_route (hkeys : ∀ key ∈ locations, key ≠ [])
    (h : route locations uri = .ok (some key)) : key ∈ locations ∧ Accepted uri key := by
  obtain ⟨hin, -⟩ := (route_eq_some_iff hkeys).mp h
  exact mem_keys_filter.mp hin

private theorem route_of_longestMatch (hkeys : ∀ key ∈ locations, key ≠ [])
    (sep : Separated locations uri) (h : LongestMatch locations uri key) :
    route locations uri = .ok (some key) := by
  rw [route_eq_some_iff hkeys]
  have accepted : Accepted uri key :=
    (accepted_iff_of_matches (hkeys key h.mem) h.matches_uri).mpr (sep.kept key h)
  refine ⟨mem_keys_filter.mpr ⟨h.mem, accepted⟩, ?_⟩
  intro k hin
  obtain ⟨hk, hacc⟩ := mem_keys_filter.mp hin
  by_cases hmatch : Matches uri k
  · have hle := h.longest k hk hmatch
    by_cases heq : k.length = key.length
    · exact .inr ⟨heq, .inl
        (eq_of_matches (hkeys k hk) (hkeys key h.mem) hmatch h.matches_uri heq)⟩
    · exact .inl (by omega)
  · obtain ⟨other, hother, hmatch', hahead⟩ := sep.outrun k hk hacc hmatch
    have hle := h.longest other hother hmatch'
    rcases hahead with hlt | ⟨heq, hcmp⟩
    · exact .inl (by omega)
    · by_cases hsame : other.length = key.length
      · obtain rfl :=
          eq_of_matches (hkeys other hother) (hkeys key h.mem) hmatch' h.matches_uri hsame
        exact .inr ⟨heq, .inr hcmp⟩
      · exact .inl (by omega)

end Maps

section Calls

variable {locations : Locations} {w : World} {req : Request} {cache : Cache} {key : Bytes}

private theorem invoked_of_route (hkeys : ∀ key ∈ locations, key ≠ [])
    (valid : req.method ≠ .INVALID) (fresh : cached cache req.uri = none)
    (h : route locations req.uri = .ok (some key)) :
    (processReq locations w req cache).invoked = [key] := by
  obtain ⟨hmem, -⟩ := mem_of_route hkeys h
  obtain ⟨handler, hhandler⟩ : ∃ handler, locations[key]? = some handler :=
    Option.isSome_iff_exists.mp (Std.ExtTreeMap.mem_iff_isSome_getElem?.mp hmem)
  exact (processReq_of_routed w valid fresh h hhandler).1

private theorem route_of_routed (hkeys : ∀ key ∈ locations, key ≠ [])
    (valid : req.method ≠ .INVALID) (fresh : cached cache req.uri = none)
    (routed : LongestPrefixRouted locations req.uri (processReq locations w req cache))
    (h : LongestMatch locations req.uri key) : route locations req.uri = .ok (some key) := by
  have invoked := routed.matched key h
  cases hroute : route locations req.uri with
  | error e => simp [route_eq hkeys] at hroute
  | ok found =>
      cases found with
      | none =>
          rw [processReq_of_unrouted w fresh (.inr hroute)] at invoked
          cases invoked
      | some k =>
          rw [invoked_of_route hkeys valid fresh hroute] at invoked
          rw [(List.cons.inj invoked).1]

private theorem separated_of_routed (hkeys : ∀ key ∈ locations, key ≠ [])
    (valid : req.method ≠ .INVALID) (fresh : cached cache req.uri = none)
    (routed : LongestPrefixRouted locations req.uri (processReq locations w req cache)) :
    Separated locations req.uri := by
  constructor
  · intro key h
    obtain ⟨-, accepted⟩ := mem_of_route hkeys (route_of_routed hkeys valid fresh routed h)
    exact (accepted_iff_of_matches (hkeys key h.mem) h.matches_uri).mp accepted
  · intro k hk accepted hne
    have candidate : k ∈ locations.keys.filter (fun key => Accepted req.uri key) :=
      mem_keys_filter.mpr ⟨hk, accepted⟩
    by_cases any : ∃ key ∈ locations, Matches req.uri key
    · obtain ⟨key, h⟩ := exists_longestMatch any
      obtain ⟨-, wins⟩ :=
        (route_eq_some_iff hkeys).mp (route_of_routed hkeys valid fresh routed h)
      refine ⟨key, h.mem, h.matches_uri, ?_⟩
      rcases wins k candidate with hlt | ⟨heq, rfl | hcmp⟩
      · exact .inl hlt
      · exact absurd h.matches_uri hne
      · exact .inr ⟨heq, hcmp⟩
    · -- no location matches, yet the loop keeps one of those it accepts
      have unmatched : ∀ key ∈ locations, ¬ Matches req.uri key :=
        fun key hkey hmatch => any ⟨key, hkey, hmatch⟩
      obtain ⟨best, hbest⟩ := exists_firstLongest List.length (List.ne_nil_of_mem candidate)
      have hroute : route locations req.uri = .ok (some best) := by
        rw [route_eq hkeys, hbest]
      have invoked := (routed.unmatched unmatched).1
      rw [invoked_of_route hkeys valid fresh hroute] at invoked
      cases invoked

private theorem routed_of_separated (hkeys : ∀ key ∈ locations, key ≠ [])
    (valid : req.method ≠ .INVALID) (fresh : cached cache req.uri = none)
    (sep : Separated locations req.uri) :
    LongestPrefixRouted locations req.uri (processReq locations w req cache) := by
  constructor
  · intro key h
    exact invoked_of_route hkeys valid fresh (route_of_longestMatch hkeys sep h)
  · intro none
    have refused : route locations req.uri = .ok Option.none := by
      rw [route_eq_none_iff hkeys]
      intro key hkey accepted
      obtain ⟨other, hother, hmatch, -⟩ := sep.outrun key hkey accepted (none key hkey)
      exact none other hother hmatch
    rw [processReq_of_unrouted w fresh (.inr refused)]
    exact ⟨rfl, _, cache, rfl, rfl⟩

end Calls

/-- The dispatch loop routes by longest prefix exactly on separated locations. -/
theorem longest_prefix_routed_iff (locations : Locations) (hkeys : ∀ key ∈ locations, key ≠ [])
    (w : World) (req : Request) (valid : req.method ≠ .INVALID) (cache : Cache)
    (fresh : cache[req.uri]? = none) :
    LongestPrefixRouted locations req.uri (processReq locations w req cache) ↔
      Separated locations req.uri := by
  have uncached : cached cache req.uri = none := by
    simp [cached, fresh]
  constructor
  · intro routed
    exact separated_of_routed hkeys valid uncached routed
  · intro sep
    exact routed_of_separated hkeys valid uncached sep

theorem longest_prefix_routed_nested :
    LongestPrefixRouted (echoLocations.insert (lit "/") notFoundRequestHandler) (lit "/echo/x")
      (processReq (echoLocations.insert (lit "/") notFoundRequestHandler) ⟨fun _ => none, []⟩
        ⟨.GET, lit "/echo/x", lit "HTTP/1.1", ∅, []⟩ ∅) := by
  have keys : (echoLocations.insert (lit "/") notFoundRequestHandler).keys =
      [lit "/", lit "/echo/"] := by
    decide
  refine (longest_prefix_routed_iff _ ?_ ⟨fun _ => none, []⟩
    ⟨.GET, lit "/echo/x", lit "HTTP/1.1", ∅, []⟩ (by decide) ∅ rfl).mpr ⟨?_, ?_⟩
  · intro key hkey
    rw [← Std.ExtTreeMap.mem_keys, keys] at hkey
    revert key
    decide
  · intro key h
    right
    have hkey := h.mem
    rw [← Std.ExtTreeMap.mem_keys, keys] at hkey
    clear h
    revert key
    decide
  · intro k hk _ unmatched
    rw [← Std.ExtTreeMap.mem_keys, keys] at hk
    have all : ∀ k ∈ [lit "/", lit "/echo/"], Matches (lit "/echo/x") k := by
      decide
    exact absurd (all k hk) unmatched

/-- A key with a final slash also takes the URIs of its length with any other last byte. -/
theorem wrong_last_byte_routed :
    ¬ LongestPrefixRouted echoLocations (lit "/echox")
      (processReq echoLocations ⟨fun _ => none, []⟩
        ⟨.GET, lit "/echox", lit "HTTP/1.1", ∅, []⟩ ∅) := by
  intro routed
  have keys : echoLocations.keys = [lit "/echo/"] := by decide
  have unmatched : ∀ key ∈ echoLocations, ¬ Matches (lit "/echox") key := by
    intro key hkey
    rw [← Std.ExtTreeMap.mem_keys, keys] at hkey
    revert key
    decide
  have invoked : (processReq echoLocations ⟨fun _ => none, []⟩
      ⟨.GET, lit "/echox", lit "HTTP/1.1", ∅, []⟩ ∅).invoked = [lit "/echo/"] := rfl
  have none := (routed.unmatched unmatched).1
  rw [invoked] at none
  cases none

end Wnza.Session.Routing
