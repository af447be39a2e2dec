/- GID: Wnza/Handler/ProxyTarget
   generality: I
   source: src/reverse_proxy_request_handler.cc (constructor, init, parse_url)
   digest: Where a proxy location leads: its configuration and the parts of a URL. -/

import Wnza.Foundation.Substring
import Wnza.Handler.ReverseProxy
import Wnza.Handler.Static

set_option autoImplicit false
set_option relaxedAutoImplicit false

namespace Wnza.Handler.ProxyTarget

open Wnza.Foundation.Substring
open Wnza.Http.Text
open Wnza.Config.Tree
open Wnza.Handler.Basic
open Wnza.Handler.Echo
open Wnza.Handler.ReverseProxy
open Wnza.Handler.Static

abbrev QUESTION : UInt8 := 63

/-- `tolower` in the C locale. -/
def tolower (c : UInt8) : UInt8 := if 65 ≤ c.toNat ∧ c.toNat ≤ 90 then c + 32 else c

def parseUrl (text : Bytes) : Url :=
  match find (lit "://") text with
  | none => ⟨[], [], []⟩
  | some i =>
      let rest := text.drop (i + 3)
      let tail := rest.dropWhile (· ≠ SLASH)
      ⟨(rest.takeWhile (· ≠ SLASH)).map tolower, tail.takeWhile (· ≠ QUESTION),
        (tail.dropWhile (· ≠ QUESTION)).drop 1⟩

/-- The fields `prefix_`, `dest_`, `port_`, `host_` and `path_`. -/
structure ReverseProxyRequestHandler where
  prefixUri : Bytes
  dest : Bytes
  port : Bytes
  host : Bytes
  path : Bytes

namespace ReverseProxyRequestHandler

/-- The constructor. -/
def make (config : NginxConfig) (prefixUri : Bytes) : Except Fault ReverseProxyRequestHandler := do
  let start ← ensureSlash prefixUri
  let value ← config.getValueFromStatement (lit "dest")
  let inner ← unquoted value
  let dest ← ensureSlash inner
  let port ← config.getValueFromStatement (lit "port")
  let loc := parseUrl dest
  return ⟨start, dest, if port = [] then lit "80" else port, loc.host, loc.path⟩

/-- The handler of a location with a destination, given how such a handler answers, and of a
location without one. -/
def init (answers : ReverseProxyRequestHandler → RequestHandler) (prefixUri : Bytes)
    (config : NginxConfig) : Except Fault RequestHandler := do
  let value ← config.getValueFromStatement (lit "dest")
  if value ≠ [] ∧ prefixUri ≠ [] then
    let h ← make config prefixUri
    return answers h
  else return notFoundRequestHandler

end ReverseProxyRequestHandler

end Wnza.Handler.ProxyTarget
