/- GID: Wnza/Handler/Static
   generality: I
   source: src/static_request_handler.cc
   digest: The static file handler, and where the paths it opens lead. -/

import Wnza.Config.Tree
import Wnza.Foundation.LexicalPath
import Wnza.Handler.Echo

set_option autoImplicit false
set_option relaxedAutoImplicit false

namespace Wnza.Handler.Static

open Wnza.Foundation.LexicalPath
open Wnza.Foundation.LexicalPath.Resolved
open Wnza.Http.Text
open Wnza.Http.Parser
open Wnza.Config.Tree
open Wnza.Handler.Basic
open Wnza.Handler.Basic.Response
open Wnza.Handler.Echo

/-- `s.rfind(t)`: where the last occurrence of `t` begins. -/
def rfind (s t : Bytes) : Option Nat :=
  (List.range (s.length + 1)).reverse.find? (fun i => t.isPrefixOf (s.drop i))

/-- Append a slash unless the text ends in one.  `compare` is given the position before the
start of an empty text. -/
def ensureSlash (s : Bytes) : Except Fault Bytes :=
  if s = [] then .error .outOfRange
  else if s.getLast? = some SLASH then .ok s
  else .ok (s ++ lit "/")

/-- The fields `root_` and `prefix_`. -/
structure StaticRequestHandler where
  root : Bytes
  prefixUri : Bytes

namespace StaticRequestHandler

def rootUri (value : Bytes) : Bytes :=
  if value.length ≠ 0 then (value.drop 1).take (value.length - 2) else lit "."

/-- The constructor. -/
def make (config : NginxConfig) (prefixUri : Bytes) : Except Fault StaticRequestHandler :=
  match config.getValueFromStatement (lit "root") with
  | .error e => .error e
  | .ok value =>
      match ensureSlash (rootUri value), ensureSlash prefixUri with
      | .error e, _ => .error e
      | .ok _, .error e => .error e
      | .ok root, .ok start => .ok ⟨root, start⟩

/-- What follows the last occurrence of the location prefix in the URI. -/
def getFileName (h : StaticRequestHandler) (uri : Bytes) : Bytes :=
  match rfind uri h.prefixUri with
  | some i => uri.drop (i + h.prefixUri.length)
  | none => []

def extensionToType (extension : Bytes) : Bytes :=
  if extension = lit ".zip" then lit "application/zip"
  else if extension = lit ".txt" then lit "text/plain"
  else if extension = lit ".jpg" then lit "image/jpeg"
  else if extension = lit ".png" then lit "image/png"
  else if extension = lit ".html" ∨ extension = lit ".htm" then lit "text/html"
  else if extension = lit ".pdf" then lit "application/pdf"
  else lit "application/octet-stream"

def extensionOf (path : Bytes) : Bytes :=
  match rfind path (lit ".") with
  | some cursor => path.drop cursor
  | none => []

/-- `none` when the file cannot be opened. -/
def fileToBody (w : World) (path : Bytes) (result : Response) : Option Response :=
  match w.files path with
  | none => none
  | some body =>
      some (((result.addBody body).addHeader (lit "Content-Type")
        (extensionToType (extensionOf path))).addHeader
          (lit "Content-Length") (stdToString body.length))

/-- The path of the static file that a URI leads to; the error page is not one of them. -/
def opens (h : StaticRequestHandler) (uri : Bytes) : Option Bytes :=
  if h.getFileName uri = [] then none else some (h.root ++ h.getFileName uri)

def handleRequest (h : StaticRequestHandler) (w : World) (req : Request) : Response :=
  let filename := h.getFileName req.uri
  let uri := h.root ++ filename
  if filename = [] then make404Error w empty
  else
    match fileToBody w uri (empty.setCode .OK) with
    | none => make404Error w empty
    | some res => makeDateServernameHeaders w res

def init (prefixUri : Bytes) (config : NginxConfig) : Except Fault RequestHandler :=
  match config.getValueFromStatement (lit "root") with
  | .error e => .error e
  | .ok [] => .ok notFoundRequestHandler
  | .ok (_ :: _) =>
      match make config prefixUri with
      | .error e => .error e
      | .ok h => .ok ⟨fun w req => .ok (h.handleRequest w req), lit "StaticHandler"⟩

theorem handleRequest_congr (h : StaticRequestHandler) {w w' : World} (req : Request)
    (file : ∀ path, h.opens req.uri = some path → w.files path = w'.files path)
    (page : w.files (lit "404page.html") = w'.files (lit "404page.html"))
    (date : w.date = w'.date) : h.handleRequest w req = h.handleRequest w' req := by
  have missing : make404Error w empty = make404Error w' empty := by
    simp only [make404Error, notFoundPage, page]
  unfold handleRequest
  by_cases hname : h.getFileName req.uri = []
  · simp only [if_pos hname, missing]
  · have opened : h.opens req.uri = some (h.root ++ h.getFileName req.uri) := if_neg hname
    simp only [if_neg hname, fileToBody, file _ opened, missing, makeDateServernameHeaders, date]

end StaticRequestHandler

def components (path : Bytes) : List (Component Bytes) :=
  (segments SLASH path).filterMap (fun s =>
    if s = lit "." then none else if s = lit ".." then some .up else some (.name s))

/-- A path after lexical resolution. -/
def resolved (path : Bytes) : Resolved Bytes :=
  resolve ⟨path.head? = some SLASH, 0, []⟩ (components path)

/-- The last components of the root that the rest of a path climbs out of are the first ones
it goes down again; a relative root is not climbed out of altogether. -/
def Reenters (root rest : Bytes) : Prop :=
  ((resolved root).absolute = true ∨
      (relative (components rest)).ups ≤ (resolved root).names.length) ∧
    (resolved root).names.drop
      ((resolved root).names.length - (relative (components rest)).ups) <+:
        (relative (components rest)).names

private theorem components_append (a b : Bytes) :
    components (a ++ SLASH :: b) = components a ++ components b := by
  rw [components, segments_append, List.filterMap_append]
  rfl

private theorem components_concat_slash (a : Bytes) : components (a ++ [SLASH]) = components a := by
  have none : components [] = [] := rfl
  rw [components_append, none, List.append_nil]

theorem ensureSlash_inv {s t : Bytes} (h : ensureSlash s = .ok t) :
    s ≠ [] ∧ ((∃ stem, s = stem ++ [SLASH] ∧ t = s) ∨ t = s ++ [SLASH]) := by
  have hs : s ≠ [] := by
    rintro rfl
    cases h
  refine ⟨hs, ?_⟩
  rw [ensureSlash, if_neg hs] at h
  by_cases hlast : s.getLast? = some SLASH
  · rw [if_pos hlast] at h
    obtain ⟨stem, hstem⟩ := List.getLast?_eq_some_iff.mp hlast
    exact .inl ⟨stem, hstem, (Except.ok.inj h).symm⟩
  · rw [if_neg hlast] at h
    exact .inr (Except.ok.inj h).symm

theorem resolved_append {root slashed : Bytes} (h : ensureSlash root = .ok slashed)
    (rest : Bytes) :
    resolved (slashed ++ rest) = (resolved root).resolve (components rest) := by
  obtain ⟨hroot, hslash⟩ := ensureSlash_inv h
  have first : (slashed ++ rest).head? = root.head? := by
    obtain ⟨c, tail, rfl⟩ := List.exists_cons_of_ne_nil hroot
    obtain ⟨-, -, rfl⟩ | rfl := hslash <;> rfl
  have parts : components (slashed ++ rest) = components root ++ components rest := by
    obtain ⟨stem, rfl, rfl⟩ | rfl := hslash
    · rw [List.append_assoc, List.singleton_append, components_append, components_concat_slash]
    · rw [List.append_assoc, List.singleton_append, components_append]
  rw [resolved, resolved, parts, first, resolve_append]

/-- The file that a URI leads to lies inside the configured root exactly if what follows the
location prefix returns to it wherever it climbs out. -/
theorem static_file_within_root_iff (config : NginxConfig) (prefixUri : Bytes)
    (h : StaticRequestHandler) (made : StaticRequestHandler.make config prefixUri = .ok h)
    (root : Bytes) (q q' : UInt8)
    (quoted : config.getValueFromStatement (lit "root") = .ok (q :: root ++ [q']))
    (uri : Bytes) :
    (∀ path, h.opens uri = some path → Within (resolved root) (resolved path)) ↔
      (h.getFileName uri ≠ [] → Reenters root (h.getFileName uri)) := by
  have unquoted : StaticRequestHandler.rootUri (q :: root ++ [q']) = root := by
    simp [StaticRequestHandler.rootUri]
  have slashed : ensureSlash root = .ok h.root := by
    rw [StaticRequestHandler.make, quoted] at made
    simp only [unquoted] at made
    cases hroot : ensureSlash root with
    | error e => simp [hroot] at made
    | ok r =>
        cases hprefix : ensureSlash prefixUri with
        | error e => simp [hroot, hprefix] at made
        | ok p =>
            simp only [hroot, hprefix, Except.ok.injEq] at made
            rw [← made]
  by_cases hname : h.getFileName uri = []
  · simp [StaticRequestHandler.opens, hname]
  · have opened : h.opens uri = some (h.root ++ h.getFileName uri) := if_neg hname
    rw [opened]
    simp only [Option.some.injEq, forall_eq', ne_eq, hname, not_false_eq_true, true_imp_iff]
    rw [resolved_append slashed, within_resolve_iff]
    rfl

/-- The block `root "./static";`. -/
def staticBlock : NginxConfig := ⟨[.mk [lit "root", lit "\"./static\""] none]⟩

theorem static_file_within_root_plain :
    StaticRequestHandler.make staticBlock (lit "/static") =
        .ok ⟨lit "./static/", lit "/static/"⟩ ∧
      ∀ path, StaticRequestHandler.opens ⟨lit "./static/", lit "/static/"⟩
          (lit "/static/a/../b.txt") = some path →
        Within (resolved (lit "./static")) (resolved path) := by
  have made : StaticRequestHandler.make staticBlock (lit "/static") =
      .ok ⟨lit "./static/", lit "/static/"⟩ := rfl
  refine ⟨made, ?_⟩
  rw [static_file_within_root_iff staticBlock (lit "/static") _ made (lit "./static")
    '"'.toUInt8 '"'.toUInt8 rfl]
  intro _
  exact ⟨.inr (by decide), by decide⟩

/-- A file next to the root directory is opened. -/
theorem static_file_outside_root :
    StaticRequestHandler.make staticBlock (lit "/static") =
        .ok ⟨lit "./static/", lit "/static/"⟩ ∧
      StaticRequestHandler.opens ⟨lit "./static/", lit "/static/"⟩ (lit "/static/../secret") =
        some (lit "./static/../secret") ∧
      ¬ Within (resolved (lit "./static")) (resolved (lit "./static/../secret")) := by
  refine ⟨rfl, by decide, ?_⟩
  rintro ⟨-, -, inside⟩
  revert inside
  decide

end Wnza.Handler.Static
