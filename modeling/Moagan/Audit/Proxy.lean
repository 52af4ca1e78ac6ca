import Moagan.Audit.Upstream
import Moagan.Lib.Runs

/-!
# The audit proxy (`src/audit/proxy.rs`)

Any number of connections is open at the same time, in a process that may be told to stop, that
aborts what takes too long then, and that may die; the next process goes on with the same logs.

* `requestRecord`, `responseRecord`, `errorRecord`   the records of one connection
* `Conn`, `advance`   a connection, and what it does between two points where it may have to wait
* `State`, `step`     all connections, the logs, what the upstream gets and what the clients get

`F` are the floating point numbers and `R` the ids of the runs.  The waits take no step of their
own: an event is what ends one.
-/

namespace Moagan.Audit.Proxy

open Redact (Unicode RedactPolicy Surface apply)

structure ProxyConfig (R : Type) where
  upstream : Text
  runId : Option R
  includeBodies : Bool
  maxBodyBytes : ℕ
  fixedLogPath : Option String

def ProxyConfig.withDefaults {R : Type} (cfg : ProxyConfig R) : ProxyConfig R :=
  if cfg.maxBodyBytes = 0 then { cfg with maxBodyBytes := 32 * 1024 * 1024 } else cfg

/-- what is checked before the proxy listens -/
def start {Url R : Type} (api : UrlApi Url) (isLoopbackIp : Text → Bool) (cfg : ProxyConfig R)
    (refuseLoopbackForward refuseLoopbackForwardAllowed : Bool) (localAddr : LocalAddr) :
    Except InvalidArgs (ProxyConfig R) := do
  let cfg := cfg.withDefaults
  validateUpstream api cfg.upstream
  validateForwardTarget api isLoopbackIp cfg.upstream refuseLoopbackForward
    refuseLoopbackForwardAllowed localAddr
  return cfg

/-- what the proxy has from elsewhere: the methods, header names and header values that are valid,
and the hash of a body -/
structure Env (Url : Type) where
  U : Unicode
  api : UrlApi Url
  serde : Serde
  sha256Hex : List UInt8 → String
  isMethod : Text → Bool
  isHeaderName : Text → Bool
  isHeaderValue : Text → Bool

/-- the log of a run, or one that the operator names -/
inductive LogPath (R : Type) where
  | fixed (path : String)
  | external (run : R)
deriving DecidableEq

section
variable {Url F R : Type} (env : Env Url)

/-! ## the records -/

def telemetry (text : Text) : Text := apply env.U .default .telemetry text

/-- of two headers of a name the last one counts -/
def redactedHeaders (headers : List (Text × Text)) : SortedMap String Text :=
  headers.foldl (fun m h => m.insert (String.ofList h.1) (telemetry env (redactHeader h.1 h.2)))
    .empty

def canonicalRedactedBody (bytes : List UInt8) (includeBodies : Bool) : Option Text :=
  if includeBodies then some (telemetry env (bodyCanonical env.serde bytes)) else none

variable (cfg : ProxyConfig R)

def requestRecord (ts : F) (id : String) (url : Text) (parsed : ParsedRequest) : AuditRecord F where
  ts := ts
  event := "request"
  id := id
  method := some parsed.method
  url := some (telemetry env url)
  status := none
  headers := redactedHeaders env parsed.headers
  bodyCanonical := canonicalRedactedBody env parsed.body cfg.includeBodies
  bodySha256 := env.sha256Hex parsed.body
  bodySize := parsed.body.length
  elapsedMs := none
  error := none

def responseRecord (ts : F) (id : String) (elapsedMs status : ℕ) (headers : List (Text × Text))
    (body : List UInt8) : AuditRecord F where
  ts := ts
  event := "response"
  id := id
  method := none
  url := none
  status := some status
  headers := redactedHeaders env headers
  bodyCanonical := canonicalRedactedBody env body cfg.includeBodies
  bodySha256 := env.sha256Hex body
  bodySize := body.length
  elapsedMs := some elapsedMs
  error := none

/-- the record of `record_upstream_error` -/
def errorRecord (ts : F) (id : String) (elapsedMs : ℕ) (error : Text) : AuditRecord F where
  ts := ts
  event := "upstream_error"
  id := id
  method := none
  url := none
  status := none
  headers := .empty
  bodyCanonical := none
  bodySha256 := env.sha256Hex []
  bodySize := 0
  elapsedMs := some elapsedMs
  error := some (telemetry env error)

/-! ## headers -/

def isHopByHopRequestHeader (name : Text) : Bool :=
  ["host", "content-length", "connection", "accept-encoding", "transfer-encoding",
    "proxy-connection", "keep-alive", "te", "trailer", "upgrade"].contains (String.ofList name)

def isHopByHopResponseHeader (name : Text) : Bool :=
  ["content-length", "connection", "transfer-encoding", "proxy-connection", "keep-alive", "te",
    "trailer", "upgrade"].contains (String.ofList name)

/-- a request on its way to the upstream -/
structure Forwarded where
  method : Text
  url : Text
  headers : List (Text × Text)
  body : List UInt8
deriving DecidableEq, Repr

def forwardedHeaders (headers : List (Text × Text)) : List (Text × Text) :=
  headers.filter fun h =>
    !isHopByHopRequestHeader h.1 && env.isHeaderName h.1 && env.isHeaderValue h.2

/-- what a client gets: `write_error` or `write_response` -/
inductive Reply where
  | error (status : ℕ) (message : String)
  | response (version : Text) (status : ℕ) (headers : List (Text × Text)) (body : List UInt8)
deriving DecidableEq, Repr

def Reply.body : Reply → List UInt8
  | error status message => Redact.utf8 (toString status ++ " " ++ message ++ "\n").toList
  | response _ _ _ body => body

/-- the lines behind the first one -/
def Reply.headers : Reply → List (Text × Text)
  | error status message =>
    [("Content-Type".toList, "text/plain; charset=utf-8".toList),
      ("Content-Length".toList, (toString (error status message).body.length).toList),
      ("Connection".toList, "close".toList)]
  | response _ _ headers body =>
    headers.filter (fun h => !isHopByHopResponseHeader h.1) ++
      [("Content-Length".toList, (toString body.length).toList),
        ("Connection".toList, "close".toList)]

def addChunk (cap : ℕ) (body : List UInt8) (chunk : List UInt8) : Except Text (List UInt8) :=
  if cap < body.length + chunk.length then .error "upstream body exceeds size limit".toList
  else .ok (body ++ chunk)

/-- the body in the chunks in which it comes, up to an error of the connection -/
def readResponseBody (cap : ℕ) (chunks : List (List UInt8)) (failure : Option Text) :
    Except Text (List UInt8) := do
  let body ← chunks.foldlM (addChunk cap) []
  match failure with
  | some e => .error e
  | none => .ok body

/-! ## the log of a connection -/

section
variable [LinearOrder R]

/-- `pick_latest_run` -/
def pickLatestRun (runs : List R) : Option R :=
  runs.foldl (fun latest run => if latest.all (run > ·) then some run else latest) none

/-- `resolve_log_path`: the log of the latest run, when none is given -/
def resolveLogPath (runs : List R) : Option (LogPath R) :=
  match cfg.fixedLogPath with
  | some path => some (.fixed path)
  | none =>
    match cfg.runId with
    | some run => some (.external run)
    | none => (pickLatestRun runs).map .external

end

/-! ## a connection -/

/-- what `handle_connection` has in hand behind the choice of its log -/
structure Exchange (F R : Type) where
  id : String
  logPath : LogPath R
  parsed : ParsedRequest
  upstreamUrl : Text
  request : AuditRecord F

/-- where a connection is: `requesting` and `answering` are where a record waits for the log -/
inductive Phase (F : Type) where
  | reading
  | resolving (parsed : ParsedRequest)
  | requesting
  | recorded
  | sent
  | receiving (status : ℕ) (headers : List (Text × Text))
  | answering (terminal : AuditRecord F) (reply : Reply)
  | replying
  | closed

/-- `written` are the records of the connection that are in its log -/
structure Conn (F R : Type) where
  phase : Phase F
  exchange : Option (Exchange F R)
  written : List (AuditRecord F)

def Conn.new : Conn F R := ⟨.reading, none, []⟩

/-- a record is in the log, is not, or is there although the write has failed -/
inductive WriteResult where
  | written
  | failed
  | unsynced
deriving DecidableEq, Repr

inductive ConnEvent (F : Type) where
  /-- `read_request` is done with what has come -/
  | received (reader : Reader)
  | timedOut
  /-- the end of the proxy is seen in place of a request -/
  | hungUp
  /-- one look at the runs, which may fail or be the last one -/
  | resolve (readable expired : Bool) (id : String) (ts : F)
  | write (result : WriteResult)
  | send
  /-- the end of the proxy is seen in place of an answer -/
  | refused (ts : F) (elapsedMs : ℕ)
  | sendFailed (error : Text) (ts : F) (elapsedMs : ℕ)
  | head (status : ℕ) (headers : List (Text × Text))
  | body (chunks : List (List UInt8)) (failure : Option Text) (ts : F) (elapsedMs : ℕ)
  /-- the reply is written, or the client is gone -/
  | replied
  | aborted

/-- what a connection does to the rest of the world -/
structure Effect (F R : Type) where
  log : Option (LogPath R × AuditRecord F)
  forward : Option Forwarded
  reply : Option Reply

def Effect.none : Effect F R := ⟨.none, .none, .none⟩

def Effect.ofReply (reply : Reply) : Effect F R := ⟨.none, .none, some reply⟩

/-- the write of a record, and what comes behind it -/
def Conn.write (c : Conn F R) (path : LogPath R) (record : AuditRecord F) (next : Phase F)
    (reply : Option Reply) : WriteResult → Conn F R × Effect F R
  | .written =>
    ({ c with phase := next, written := c.written ++ [record] },
      ⟨some (path, record), .none, reply⟩)
  | .failed => ({ c with phase := .closed }, .none)
  | .unsynced =>
    ({ c with phase := .closed, written := c.written ++ [record] },
      ⟨some (path, record), .none, .none⟩)

/-- a record and a reply wait for the log -/
def Conn.answer (c : Conn F R) (terminal : AuditRecord F) (reply : Reply) : Conn F R :=
  { c with phase := .answering terminal reply }

/-- a task can be aborted where it waits -/
def Phase.waits : Phase F → Bool
  | .resolving _ => false
  | .recorded => false
  | .closed => false
  | _ => true

def forwardOf (x : Exchange F R) : Forwarded :=
  ⟨x.parsed.method, x.upstreamUrl, forwardedHeaders env x.parsed.headers, x.parsed.body⟩

variable [LinearOrder R]

/-- `handle_connection`, from one wait to the next -/
def advance (shutdown aborting : Bool) (runs : List R) (c : Conn F R) :
    ConnEvent F → Option (Conn F R × Effect F R)
  | .received reader =>
    match c.phase with
    | .reading =>
      match readRequest env.isMethod cfg.maxBodyBytes reader with
      | .error e => some ({ c with phase := .replying }, .ofReply (.error e.status e.message))
      | .ok parsed => some ({ c with phase := .resolving parsed }, .none)
    | _ => none
  | .timedOut =>
    match c.phase with
    | .reading => some ({ c with phase := .replying }, .ofReply (.error 408 "request timeout"))
    | _ => none
  | .hungUp =>
    match c.phase with
    | .reading => if shutdown then some ({ c with phase := .closed }, .none) else none
    | _ => none
  | .resolve readable expired id ts =>
    match c.phase with
    | .resolving parsed =>
      if readable then
        match resolveLogPath cfg runs with
        | none =>
          if expired then
            some ({ c with phase := .replying }, .ofReply (.error 503 "no active run"))
          else some (c, .none)
        | some path =>
          match joinUpstream env.api cfg.upstream parsed.target with
          | .error _ => some ({ c with phase := .closed }, .none)
          | .ok url =>
            let x := ⟨id, path, parsed, url, requestRecord env cfg ts id url parsed⟩
            some ({ c with phase := .requesting, exchange := some x }, .none)
      else some ({ c with phase := .closed }, .none)
    | _ => none
  | .write result =>
    match c.phase, c.exchange with
    | .requesting, some x => some (c.write x.logPath x.request .recorded none result)
    | .answering terminal reply, some x =>
      some (c.write x.logPath terminal .replying (some reply) result)
    | _, _ => none
  | .send =>
    match c.phase, c.exchange with
    | .recorded, some x => some ({ c with phase := .sent }, ⟨none, some (forwardOf env x), none⟩)
    | _, _ => none
  | .refused ts elapsedMs =>
    match c.phase, c.exchange with
    | .recorded, some x | .sent, some x =>
      if shutdown then
        some (c.answer (errorRecord env ts x.id elapsedMs "proxy shutting down".toList)
          (.error 502 "proxy shutting down"), .none)
      else none
    | _, _ => none
  | .sendFailed error ts elapsedMs =>
    match c.phase, c.exchange with
    | .sent, some x =>
      some (c.answer (errorRecord env ts x.id elapsedMs error) (.error 502 "upstream error"),
        .none)
    | _, _ => none
  | .head status headers =>
    match c.phase with
    | .sent => some ({ c with phase := .receiving status headers }, .none)
    | _ => none
  | .body chunks failure ts elapsedMs =>
    match c.phase, c.exchange with
    | .receiving status headers, some x =>
      match readResponseBody cfg.maxBodyBytes chunks failure with
      | .error e =>
        some (c.answer (errorRecord env ts x.id elapsedMs e) (.error 502 "upstream body error"),
          .none)
      | .ok body =>
        some (c.answer (responseRecord env cfg ts x.id elapsedMs status headers body)
          (.response x.parsed.version status headers body), .none)
    | _, _ => none
  | .replied =>
    match c.phase with
    | .replying => some ({ c with phase := .closed }, .none)
    | _ => none
  | .aborted =>
    if aborting && c.phase.waits then some ({ c with phase := .closed }, .none) else none

/-! ## the proxy -/

/-- `serve`: `stopped` when it has returned, `failed` when it has with an error, and `down` when its
process is dead -/
inductive Serve where
  | listening
  | draining
  | aborting
  | stopped
  | failed
  | down
deriving DecidableEq, Repr

structure State (F R : Type) where
  serve : Serve
  shutdown : Bool
  runs : List R
  conns : List (Conn F R)
  logs : LogPath R → List (AuditRecord F)
  /-- by the connections they come from -/
  forwarded : List (ℕ × Forwarded)
  replies : List (ℕ × Reply)

inductive Event (F R : Type) where
  /-- another process begins a run -/
  | newRun (run : R)
  | accept
  | acceptFailed
  /-- the token is cancelled -/
  | cancel
  | drain
  /-- the connections have taken too long -/
  | timeUp
  | stop
  | conn (n : ℕ) (e : ConnEvent F)
  | crash
  | start

def State.init (runs : List R) : State F R := ⟨.listening, false, runs, [], fun _ => [], [], []⟩

def Conn.isClosed (c : Conn F R) : Bool :=
  match c.phase with
  | .closed => true
  | _ => false

def State.isAborting (s : State F R) : Bool := s.serve = .aborting || s.serve = .failed

/-- the connection goes on, with its effect -/
def State.put (s : State F R) (n : ℕ) (c : Conn F R) (effect : Effect F R) : State F R :=
  { s with
    conns := s.conns.set n c
    logs := fun path =>
      s.logs path ++ (effect.log.toList.filter (·.1 = path)).map Prod.snd
    forwarded := s.forwarded ++ effect.forward.toList.map (n, ·)
    replies := s.replies ++ effect.reply.toList.map (n, ·) }

def step (s : State F R) : Event F R → Option (State F R)
  | .newRun run => some { s with runs := s.runs ++ [run] }
  | .accept =>
    if s.serve = .listening then some { s with conns := s.conns ++ [.new] } else none
  | .acceptFailed => if s.serve = .listening then some { s with serve := .failed } else none
  | .cancel => some { s with shutdown := true }
  | .drain =>
    if s.serve = .listening ∧ s.shutdown then some { s with serve := .draining } else none
  | .timeUp => if s.serve = .draining then some { s with serve := .aborting } else none
  | .stop =>
    if (s.serve = .draining ∨ s.serve = .aborting) ∧ s.conns.all Conn.isClosed then
      some { s with serve := .stopped }
    else none
  | .conn n e => do
    let c ← s.conns[n]?
    let (c', effect) ← advance env cfg s.shutdown s.isAborting s.runs c e
    some (s.put n c' effect)
  | .crash => some { s with serve := .down, conns := s.conns.map ({ · with phase := .closed }) }
  | .start =>
    if (s.serve = .stopped ∨ s.serve = .failed ∨ s.serve = .down) ∧ s.conns.all Conn.isClosed then
      some { s with serve := .listening, shutdown := false }
    else none

end

end Moagan.Audit.Proxy
