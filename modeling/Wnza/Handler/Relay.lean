/- GID: Wnza/Handler/Relay
   generality: I
   source: src/response.cc (build), src/reverse_proxy_request_handler.cc (send_request)
   digest: A response written by the server is read by the proxy, however its bytes arrive. -/

import Wnza.Handler.ProxyReading

set_option autoImplicit false
set_option relaxedAutoImplicit false

namespace Wnza.Handler.Relay

open Wnza.Http.Text
open Wnza.Http.Parser
open Wnza.Handler.Basic
open Wnza.Handler.Basic.Response
open Wnza.Handler.ProxyReading
open Wnza.Handler.ProxyTarget
open Wnza.Handler.ReverseProxy

/-- Header names are not empty and have no colon, and no name or value has a line end. -/
structure Printable (headers : Headers) : Prop where
  named : ∀ h ∈ headers.toList, h.1 ≠ [] ∧ ∀ c ∈ h.1, c ≠ COLON ∧ c ≠ CR ∧ c ≠ LF
  plain : ∀ h ∈ headers.toList, ∀ c ∈ h.2, c ≠ CR ∧ c ≠ LF

/-- What the proxy returns for a response of the server. -/
structure Relayed (w : World) (prefixUri : Bytes) (r res : Response) : Prop where
  code : res.code = .OK
  headers : res.headers =
    (((r.headers.erase (lit "Transfer-Encoding")).insert
      (lit "Content-Length") (stdToString res.body.length)).insert
      (lit "Date") w.date).insert (lit "Server") (lit "WNZA")
  body : res.body = rewriteLinks prefixUri r.body

def replyOf (r : Response) (printable : Printable r.headers) : HttpReply where
  version := lit "HTTP/1.1"
  code := lit "200"
  reason := lit "OK"
  headers := r.headers.toList.map (fun h => (h.1, SP :: h.2))
  body := r.body
  version_http := http11_version
  version_plain := http11_plain
  code_digits := code200_digits
  reason_plain := ok_plain
  headers_named := by
    intro h hh
    obtain ⟨k, hk, rfl⟩ := List.mem_map.mp hh
    exact printable.named k hk
  headers_plain := by
    intro h hh
    obtain ⟨k, hk, rfl⟩ := List.mem_map.mp hh
    intro c hc
    rcases List.mem_cons.mp hc with rfl | hc
    · exact ⟨by decide, by decide⟩
    · exact printable.plain k hk c hc

private theorem text_replyOf {r : Response} (ok : r.code = .OK) (printable : Printable r.headers) :
    (replyOf r printable).text = r.build.flatten := by
  have line : lit "\r\n" = crlf := by decide
  have colon : lit ": " = [COLON, SP] := by decide
  have status : (replyOf r printable).statusLine = lit "HTTP/1.1 " ++ lit "200 OK" := rfl
  have entries : (fun h : Bytes × Bytes => HttpReply.headerLine (h.1, SP :: h.2) ++ crlf) =
      fun h => h.1 ++ lit ": " ++ h.2 ++ lit "\r\n" := by
    funext h
    simp [HttpReply.headerLine, colon, line]
  rw [HttpReply.text, status, HttpReply.tail]
  simp only [replyOf, List.flatMap_map, entries, build, head, ok, statusText, line,
    List.flatten_cons, List.flatten_nil, List.append_nil, List.append_assoc]

section Headers

private theorem headers_foldl_addedHeader (entries : List (Bytes × Bytes)) (res : Response) :
    ((entries.map (fun h => (h.1, SP :: h.2))).foldl addedHeader res).headers =
      res.headers.insertMany (entries.filter (fun h => h.1 ≠ lit "Transfer-Encoding")) := by
  induction entries generalizing res with
  | nil => simp
  | cons h entries ih =>
      obtain ⟨name, value⟩ := h
      rw [List.map_cons, List.foldl_cons, ih, addedHeader]
      by_cases hname : name = lit "Transfer-Encoding"
      · simp [hname]
      · simp [hname, addHeader, Std.ExtTreeMap.insertMany_cons]

private theorem code_foldl_addedHeader (entries : List (Bytes × Bytes)) (res : Response) :
    (entries.foldl addedHeader res).code = res.code := by
  induction entries generalizing res with
  | nil => rfl
  | cons h entries ih =>
      rw [List.foldl_cons, ih, addedHeader]
      split_ifs <;> rfl

private theorem insertMany_filter_toList (headers : Headers) (key : Bytes) :
    (∅ : Headers).insertMany (headers.toList.filter (fun h => h.1 ≠ key)) = headers.erase key := by
  have distinct : (headers.toList.filter (fun h => h.1 ≠ key)).Pairwise
      (fun a b => ¬ compare a.1 b.1 = .eq) :=
    Std.ExtTreeMap.distinct_keys_toList.filter _
  apply Std.ExtTreeMap.ext_getElem?
  intro k
  rw [Std.ExtTreeMap.getElem?_erase]
  by_cases hkey : key = k
  · subst hkey
    rw [if_pos Std.ReflCmp.compare_self,
      Std.ExtTreeMap.getElem?_insertMany_list_of_contains_eq_false (by simp)]
    simp
  · rw [if_neg (fun h => hkey (Std.LawfulEqCmp.eq_of_compare h))]
    cases hget : headers[k]? with
    | none =>
        have absent : k ∉ (headers.toList.filter (fun h => h.1 ≠ key)).map Prod.fst := by
          intro hmem
          obtain ⟨⟨name, v⟩, hin, rfl⟩ := List.mem_map.mp hmem
          have entry := Std.ExtTreeMap.mem_toList_iff_getElem?_eq_some.mp (List.mem_filter.mp hin).1
          cases hget.symm.trans entry
        rw [Std.ExtTreeMap.getElem?_insertMany_list_of_contains_eq_false (by simpa using absent)]
        simp
    | some v =>
        have entry := Std.ExtTreeMap.mem_toList_iff_getElem?_eq_some.mpr hget
        exact Std.ExtTreeMap.getElem?_insertMany_list_of_mem Std.ReflCmp.compare_self distinct
          (List.mem_filter.mpr ⟨entry, by simpa using Ne.symm hkey⟩)

private theorem relayed_answer (w : World) (prefixUri : Bytes) {r : Response}
    (printable : Printable r.headers) :
    Relayed w prefixUri r (answer w prefixUri (replyOf r printable)) := by
  refine ⟨?_, ?_, rfl⟩
  · exact code_foldl_addedHeader _ _
  · have headers := headers_foldl_addedHeader r.headers.toList (empty.setCode .OK)
    rw [show (empty.setCode .OK).headers = ∅ from rfl, insertMany_filter_toList] at headers
    rw [← headers]
    rfl

end Headers

/-- A response with code OK, written by the server and cut into any segments on its way, is
returned by the proxy with its headers and its body, links rewritten. -/
theorem proxy_decodes_built_response (net : Network) (h : ReverseProxyRequestHandler) (w : World)
    (req : Request) (valid : req.method ≠ .INVALID) (host : Bytes) (r : Response)
    (ok : r.code = .OK) (printable : Printable r.headers) (segments : List Bytes)
    (answered : net host req = some segments) (delivered : segments.flatten = r.build.flatten)
    (n : Nat) :
    ∃ res, sendRequest net h w (n + 1) req host = some (.ok res) ∧
      Relayed w h.prefixUri r res := by
  have cuttable : ∀ k ∈ (replyOf r printable).headers, Cuttable k := by
    intro k hk _
    obtain ⟨entry, -, rfl⟩ := List.mem_map.mp hk
    simp
  have read : readResponse w h.prefixUri segments =
      .ok (.respond (answer w h.prefixUri (replyOf r printable))) :=
    readResponse_ok _ rfl cuttable (delivered.trans (text_replyOf ok printable).symm)
  refine ⟨_, ?_, relayed_answer w h.prefixUri printable⟩
  rw [sendRequest_succ valid answered, read]

/-- An answer with one header, cut inside a line end and inside the body. -/
theorem proxy_decodes_cut_response :
    ∃ res, sendRequest
        (fun _ _ => some [lit "HTTP/1.1 200 OK\r", lit "\nA: b\r\n\r\nh", lit "i"])
        ⟨lit "/p/", lit "http://up/", lit "80", lit "up", lit "/"⟩ ⟨fun _ => none, []⟩ 1
        ⟨.GET, lit "/", lit "HTTP/1.0", ∅, []⟩ (lit "up") = some (.ok res) ∧
      Relayed ⟨fun _ => none, []⟩ (lit "/p/")
        ⟨.OK, (∅ : Headers).insert (lit "A") (lit "b"), lit "hi"⟩ res := by
  have printable : Printable ((∅ : Headers).insert (lit "A") (lit "b")) := by
    have entries : ((∅ : Headers).insert (lit "A") (lit "b")).toList = [(lit "A", lit "b")] := rfl
    constructor
    · rw [entries]
      exact List.forall_mem_singleton.mpr ⟨by decide, forall_mem_of_all (by decide)⟩
    · rw [entries]
      exact List.forall_mem_singleton.mpr (forall_mem_of_all (by decide))
  exact proxy_decodes_built_response _ ⟨lit "/p/", lit "http://up/", lit "80", lit "up", lit "/"⟩
    ⟨fun _ => none, []⟩ ⟨.GET, lit "/", lit "HTTP/1.0", ∅, []⟩ (by decide) (lit "up")
    ⟨.OK, (∅ : Headers).insert (lit "A") (lit "b"), lit "hi"⟩ rfl printable
    [lit "HTTP/1.1 200 OK\r", lit "\nA: b\r\n\r\nh", lit "i"] rfl rfl 0

end Wnza.Handler.Relay
