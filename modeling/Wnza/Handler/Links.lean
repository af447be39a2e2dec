/- GID: Wnza/Handler/Links
   generality: I
   source: src/reverse_proxy_request_handler.cc (send_request, handle_request)
   digest: The links that the proxy rewrites, and the requests that they lead to. -/

import Wnza.Config.Lexer
import Wnza.Foundation.Substitution
import Wnza.Handler.Forwarding
import Wnza.Handler.Hops

set_option autoImplicit false
set_option relaxedAutoImplicit false

namespace Wnza.Handler.Links

open Wnza.Foundation.Substitution
open Wnza.Foundation.Substring
open Wnza.Http.Text
open Wnza.Http.Parser
open Wnza.Config.Lexer (QUOTE)
open Wnza.Handler.Basic
open Wnza.Handler.Forwarding
open Wnza.Handler.Hops
open Wnza.Handler.ProxyReading
open Wnza.Handler.ProxyTarget
open Wnza.Handler.ReverseProxy

/-- The text stands before the first byte of a link. -/
def OpensLink (before : Bytes) : Prop := lit "href=\"" <:+ before ∨ lit "src=\"" <:+ before

instance (before : Bytes) : Decidable (OpensLink before) := inferInstanceAs (Decidable (_ ∨ _))

/-- What stands for a byte of a body in the rewritten one: the location prefix for the slash that
a link begins with, and the byte itself for any other. -/
def relink (prefixUri before : Bytes) (c : UInt8) : Bytes :=
  if c = SLASH ∧ OpensLink before then prefixUri else [c]

/-- The body with the location prefix in place of the first slash of each link. -/
def relinked (prefixUri body : Bytes) : Bytes := rewriteFrom (relink prefixUri) [] body

/-- The link stands in the body, behind one of the two attributes and before a quote. -/
def HasLink (body link : Bytes) : Prop :=
  ∃ before behind, OpensLink before ∧ body = before ++ (link ++ QUOTE :: behind)

section Rewriting

variable {prefixUri : Bytes}

private theorem quote_of_opensLink {before : Bytes} {c : UInt8}
    (opens : OpensLink (before ++ [c])) :
    c = QUOTE := by
  have href : lit "href=\"" = lit "href=" ++ [QUOTE] := by decide
  have src : lit "src=\"" = lit "src=" ++ [QUOTE] := by decide
  have last : ∀ t, t ++ [QUOTE] <:+ before ++ [c] → c = QUOTE := by
    rintro t ⟨x, hx⟩
    rw [← List.append_assoc] at hx
    exact (List.singleton_inj.mp (List.append_inj' hx rfl).2).symm
  rcases opens with suffix | suffix
  · exact last (lit "href=") (href ▸ suffix)
  · exact last (lit "src=") (src ▸ suffix)

private theorem rewriteFrom_of_unquoted {f : Bytes → UInt8 → Bytes} {before text : Bytes}
    (opens : ∀ before d, f before d ≠ [d] → OpensLink before) (quote : QUOTE ∉ text)
    (start : ∀ d, f before d = [d]) : rewriteFrom f before text = text := by
  refine rewriteFrom_of_kept (fun x d y split => ?_)
  cases x using List.reverseRecOn with
  | nil =>
      rw [List.append_nil]
      exact start d
  | append_singleton x e _ =>
      by_contra changed
      rw [← List.append_assoc] at changed
      have isQuote := quote_of_opensLink (opens _ _ changed)
      exact quote (by rw [split, isQuote]; simp)

private theorem rewriteFrom_prefix (quote : QUOTE ∉ prefixUri) {before : Bytes}
    (other : ¬ lit "src=\"" <:+ before) :
    rewriteFrom (substAfter (lit "src=\"") SLASH prefixUri) before prefixUri = prefixUri := by
  refine rewriteFrom_of_unquoted (fun b d changed => ?_) quote (fun d => if_neg fun h => other h.2)
  by_contra none
  exact changed (if_neg fun h => none (.inr h.2))

private theorem not_both_attributes {before : Bytes} (href : lit "href=\"" <:+ before) :
    ¬ lit "src=\"" <:+ before := by
  intro src
  have := List.suffix_of_suffix_length_le src href (by decide)
  revert this
  decide

private theorem rewriteLinks_eq_relinked (slash : prefixUri.getLast? = some SLASH)
    (quote : QUOTE ∉ prefixUri) (body : Bytes) :
    rewriteLinks prefixUri body = relinked prefixUri body := by
  have href : lit "href=\"/" = lit "href=\"" ++ [SLASH] := by decide
  have src : lit "src=\"/" = lit "src=\"" ++ [SLASH] := by decide
  obtain ⟨stem, hstem⟩ := List.getLast?_eq_some_iff.mp slash
  rw [rewriteLinks, href, src, replaceAll_concat (by decide), replaceAll_concat (by decide)]
  refine rewriteFrom_comp (fun before c => ?_) [] body
  -- the first pass keeps what stands before a place, back to the last slash
  have kept : ∀ t, SLASH ∉ t →
      (t <:+ rewriteFrom (substAfter (lit "href=\"") SLASH prefixUri) [] before ↔
        t <:+ before) := by
    intro t ht
    refine suffix_rewriteFrom_iff (fun b d hd => substAfter_of_ne hd) (fun b => ?_) ht
    rw [substAfter]
    split_ifs
    · exact ⟨stem, hstem⟩
    · exact ⟨[], rfl⟩
  by_cases first : c = SLASH ∧ lit "href=\"" <:+ before
  · have opened : substAfter (lit "href=\"") SLASH prefixUri before c = prefixUri := if_pos first
    have link : relink prefixUri before c = prefixUri := if_pos ⟨first.1, .inl first.2⟩
    rw [opened, link, rewriteFrom_prefix quote]
    exact not_both_attributes ((kept _ (by decide)).mpr first.2)
  · have same : substAfter (lit "href=\"") SLASH prefixUri before c = [c] := if_neg first
    have link : relink prefixUri before c =
        if c = SLASH ∧ lit "src=\"" <:+ before then prefixUri else [c] := by
      refine if_congr ?_ rfl rfl
      constructor
      · rintro ⟨hc, opens | opens⟩
        · exact absurd ⟨hc, opens⟩ first
        · exact ⟨hc, opens⟩
      · rintro ⟨hc, opens⟩
        exact ⟨hc, .inr opens⟩
    rw [same, link, rewriteFrom, rewriteFrom, List.append_nil, substAfter]
    exact if_congr (and_congr_right fun _ => kept _ (by decide)) rfl rfl

private theorem opensLink_relinked_iff (slash : prefixUri.getLast? = some SLASH) {before : Bytes} :
    OpensLink (relinked prefixUri before) ↔ OpensLink before := by
  obtain ⟨stem, hstem⟩ := List.getLast?_eq_some_iff.mp slash
  have kept : ∀ t, SLASH ∉ t → (t <:+ relinked prefixUri before ↔ t <:+ before) := by
    intro t ht
    refine suffix_rewriteFrom_iff (fun b d hd => if_neg fun h => hd h.1) (fun b => ?_) ht
    by_cases opens : OpensLink b
    · exact ⟨stem, (if_pos ⟨rfl, opens⟩).trans hstem⟩
    · exact ⟨[], if_neg fun h => opens h.2⟩
  exact or_congr (kept _ (by decide)) (kept _ (by decide))

private theorem hasLink_relinked (slash : prefixUri.getLast? = some SLASH) {body q : Bytes}
    (link : HasLink body (SLASH :: q)) (quote : QUOTE ∉ q) :
    HasLink (relinked prefixUri body) (prefixUri ++ q) := by
  obtain ⟨before, behind, opens, rfl⟩ := link
  have first : relink prefixUri before SLASH = prefixUri := if_pos ⟨rfl, opens⟩
  have same : rewriteFrom (relink prefixUri) (before ++ [SLASH]) q = q := by
    refine rewriteFrom_of_unquoted (fun b d changed => ?_) quote (fun d => if_neg fun h => ?_)
    · by_contra none
      exact changed (if_neg fun h => none h.2)
    · exact absurd (quote_of_opensLink h.2) (by decide)
  have closing : relink prefixUri (before ++ [SLASH] ++ q) QUOTE = [QUOTE] := by
    refine if_neg fun h => ?_
    cases h.1
  refine ⟨relinked prefixUri before,
    rewriteFrom (relink prefixUri) (before ++ [SLASH] ++ q ++ [QUOTE]) behind,
    (opensLink_relinked_iff slash).mpr opens, ?_⟩
  rw [relinked, rewriteFrom_append, List.nil_append, List.cons_append, rewriteFrom, first,
    rewriteFrom_append, same, rewriteFrom, closing, List.singleton_append,
    ← List.append_assoc prefixUri]
  rfl

end Rewriting

/-- The first request that `handle_request` sends goes to the host and asks for the target, and the
answer depends on what the host replies to it. -/
structure AsksFirst (h : ReverseProxyRequestHandler) (req : Request) (host target : Bytes)
    (sent : Request) : Prop where
  uri : sent.uri = target
  carries : Carries req host sent
  first : ∀ net w n, (asks net h w (n + 1) req).head? = some (host, sent)
  unreached : ∀ net w n, net host sent = none →
    handleRequest net h w (n + 1) req = some (.ok (throw400Error w))
  answered : ∀ net w n segments res, net host sent = some segments →
    readResponse w h.prefixUri segments = .ok (.respond res) →
      handleRequest net h w (n + 1) req = some (.ok res)

private theorem asksFirst_below {h : ReverseProxyRequestHandler} {req : Request} {rest : Bytes}
    (known : h.host ≠ [] ∧ h.path ≠ []) (slash : h.prefixUri.getLast? = some SLASH)
    (huri : req.uri = h.prefixUri ++ rest) (unslashed : rest.getLast? ≠ some SLASH)
    (valid : req.method ≠ .INVALID) :
    AsksFirst h req h.host (SLASH :: rest) (getProxyRequest req ⟨h.host, SLASH :: rest, []⟩) := by
  obtain ⟨uri, tail, ended, found, behind, target⟩ := target_below slash huri unslashed
  have sends_first : ∀ net w n, asks net h w n req =
      sends net h w n (getProxyRequest req ⟨h.host, SLASH :: rest, []⟩) h.host := by
    intro net w n
    simp only [asks, if_neg (not_or.mpr known), ended, found, behind, target]
  have sent : ∀ net w n, handleRequest net h w n req =
      sendRequest net h w n (getProxyRequest req ⟨h.host, SLASH :: rest, []⟩) h.host := by
    intro net w n
    simp only [handleRequest, if_neg (not_or.mpr known), ended, found, behind, target]
  obtain ⟨text, written⟩ :=
    @exists_requestToString (getProxyRequest req ⟨h.host, SLASH :: rest, []⟩) valid
  have carries := @carries_getProxyRequest req ⟨h.host, SLASH :: rest, []⟩
  have valid' : (getProxyRequest req ⟨h.host, SLASH :: rest, []⟩).method ≠ .INVALID := valid
  refine ⟨List.append_nil _, carries, fun net w n => ?_, fun net w n unknown => ?_,
    fun net w n segments res replied read => ?_⟩
  · rw [sends_first, sends_succ, written]
    rfl
  · rw [sent, sendRequest_unreached valid' unknown]
  · rw [sent, sendRequest_succ valid' replied, read]

/-- The links of a body are rewritten, and nothing else, to links below the location, and the first
thing that a request for such a link asks of the host is the original one. -/
theorem links_lead_back (h : ReverseProxyRequestHandler) (hhost : h.host ≠ [])
    (hpath : h.path = lit "/") (slash : h.prefixUri.getLast? = some SLASH)
    (quote : QUOTE ∉ h.prefixUri) (body : Bytes) :
    rewriteLinks h.prefixUri body = relinked h.prefixUri body ∧
      ∀ q, HasLink body (SLASH :: q) →
        (∀ c ∈ q, c ≠ SP ∧ isCtl c = false ∧ c ≠ QUOTE) → q.getLast? ≠ some SLASH →
        HasLink (rewriteLinks h.prefixUri body) (h.prefixUri ++ q) ∧
          ∀ req : Request, req.method ≠ .INVALID → req.uri = h.prefixUri ++ q →
            ∃ sent, AsksFirst h req h.host (SLASH :: q) sent := by
  have rewritten := rewriteLinks_eq_relinked slash quote body
  refine ⟨rewritten, fun q link plain unslashed => ⟨?_, fun req valid huri => ?_⟩⟩
  · rw [rewritten]
    exact hasLink_relinked slash link (fun none => (plain QUOTE none).2.2 rfl)
  · exact ⟨_, asksFirst_below ⟨hhost, by rw [hpath]; decide⟩ slash huri unslashed valid⟩

theorem links_lead_back_anchor :
    rewriteLinks (lit "/p/") (lit "<a href=\"/x\">") = lit "<a href=\"/p/x\">" ∧
      rewriteLinks (lit "/p/") (lit "<a href=\"/x\">") =
        relinked (lit "/p/") (lit "<a href=\"/x\">") ∧
      ∃ sent, AsksFirst ⟨lit "/p/", lit "http://up/", lit "80", lit "up", lit "/"⟩
        ⟨.GET, lit "/p/x", lit "HTTP/1.0", ∅, []⟩ (lit "up") (lit "/x") sent := by
  have link : HasLink (lit "<a href=\"/x\">") (SLASH :: lit "x") :=
    ⟨lit "<a href=\"", lit ">", .inl (by decide), by decide⟩
  obtain ⟨rewritten, leads⟩ := links_lead_back
    ⟨lit "/p/", lit "http://up/", lit "80", lit "up", lit "/"⟩ (by decide) rfl (by decide)
    (by decide) (lit "<a href=\"/x\">")
  exact ⟨by decide, rewritten, (leads (lit "x") link (forall_mem_of_all (by decide))
    (by decide)).2 ⟨.GET, lit "/p/x", lit "HTTP/1.0", ∅, []⟩ (by decide) rfl⟩

end Wnza.Handler.Links
