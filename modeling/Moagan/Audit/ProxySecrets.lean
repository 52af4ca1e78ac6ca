import Moagan.Audit.ProxyForwards

/-!
# The headers that are not written down (`src/audit/proxy.rs`, `src/audit/format.rs`)

* `hide`           headers without the values of the sensitive ones
* `advance_hide`   a connection does not look at what is hidden
* `step_hide`      neither does a step
* `logs_hide`      so the logs of two runs that differ in nothing else are the same
-/

namespace Moagan.Audit.Proxy

open Runs

/-! ## what is hidden -/

def hide (headers : List (Text × Text)) : List (Text × Text) :=
  headers.map fun h => (h.1, redactHeader h.1 h.2)

theorem redactHeader_redactHeader (name value : Text) :
    redactHeader name (redactHeader name value) = redactHeader name value := by
  unfold redactHeader
  split <;> rfl

@[simp] theorem hide_hide (headers : List (Text × Text)) : hide (hide headers) = hide headers := by
  unfold hide
  rw [List.map_map]
  refine List.map_congr_left fun h _ => ?_
  exact Prod.ext rfl (redactHeader_redactHeader h.1 h.2)

def ParsedRequest.hide (p : ParsedRequest) : ParsedRequest :=
  { p with headers := Proxy.hide p.headers }

@[simp] theorem ParsedRequest.hide_hide (p : ParsedRequest) : p.hide.hide = p.hide := by
  simp [ParsedRequest.hide]

def Reply.hide : Reply → Reply
  | .error status message => .error status message
  | .response version status headers body => .response version status (Proxy.hide headers) body

@[simp] theorem Reply.hide_hide (reply : Reply) : reply.hide.hide = reply.hide := by
  cases reply <;> simp [Reply.hide]

section
variable {Url F R : Type}

def Exchange.hide (x : Exchange F R) : Exchange F R := { x with parsed := x.parsed.hide }

@[simp] theorem Exchange.hide_hide (x : Exchange F R) : x.hide.hide = x.hide := by
  simp [Exchange.hide]

def Phase.hide : Phase F → Phase F
  | .reading => .reading
  | .resolving parsed => .resolving parsed.hide
  | .requesting => .requesting
  | .recorded => .recorded
  | .sent => .sent
  | .receiving status headers => .receiving status (Proxy.hide headers)
  | .answering terminal reply => .answering terminal reply.hide
  | .replying => .replying
  | .closed => .closed

@[simp] theorem Phase.hide_hide (phase : Phase F) : phase.hide.hide = phase.hide := by
  cases phase <;> simp [Phase.hide]

def Conn.hide (c : Conn F R) : Conn F R :=
  { c with phase := c.phase.hide, exchange := c.exchange.map Exchange.hide }

@[simp] theorem Conn.hide_hide (c : Conn F R) : c.hide.hide = c.hide := by
  simp [Conn.hide, Function.comp_def]

/-- what is seen of a step: the connection behind it, and what it writes -/
def seen (r : Conn F R × Effect F R) : Conn F R × Option (LogPath R × AuditRecord F) :=
  (r.1.hide, r.2.log)

/-- What a request holds is hidden when it is read. -/
def ConnEvent.hide : ConnEvent F → ConnEvent F
  | .head status headers => .head status (Proxy.hide headers)
  | e => e

/-! ## a connection -/

variable {env : Env Url} {cfg : ProxyConfig R}

/-- the records of a message show what is hidden as it is -/
theorem redactedHeaders_hide (env : Env Url) (headers : List (Text × Text)) :
    redactedHeaders env (hide headers) = redactedHeaders env headers := by
  unfold redactedHeaders hide
  rw [List.foldl_map]
  congr 1
  funext m h
  rw [redactHeader_redactHeader]

theorem requestRecord_hide (ts : F) (id : String) (url : Text) (p : ParsedRequest) :
    requestRecord env cfg ts id url p.hide = requestRecord env cfg ts id url p := by
  unfold requestRecord ParsedRequest.hide
  rw [redactedHeaders_hide]

theorem responseRecord_hide (ts : F) (id : String) (elapsedMs status : ℕ)
    (headers : List (Text × Text)) (body : List UInt8) :
    responseRecord env cfg ts id elapsedMs status (hide headers) body =
      responseRecord env cfg ts id elapsedMs status headers body := by
  unfold responseRecord
  rw [redactedHeaders_hide]

theorem write_seen (c : Conn F R) (path : LogPath R) (record : AuditRecord F) (next : Phase F)
    (reply reply' : Option Reply) (result : WriteResult) :
    seen (c.hide.write path record next.hide reply' result) =
      seen (c.write path record next reply result) := by
  cases result <;> simp [Conn.write, seen, Conn.hide, Effect.none, Function.comp_def]

/-- a step to another place, which may differ in what is hidden -/
theorem seen_phase (c : Conn F R) {next next' : Phase F} {effect effect' : Effect F R}
    (hnext : next'.hide = next.hide) (hlog : effect'.log = effect.log) :
    seen ({ c.hide with phase := next' }, effect') = seen ({ c with phase := next }, effect) := by
  simp [seen, Conn.hide, Function.comp_def, hnext, hlog]

variable [LinearOrder R]

/-- **A connection does not look at what is hidden.** -/
theorem advance_hide (shutdown aborting : Bool) (runs : List R) (c : Conn F R) (e : ConnEvent F) :
    (advance env cfg shutdown aborting runs c.hide e.hide).map seen =
      (advance env cfg shutdown aborting runs c e).map seen := by
  obtain ⟨phase, exchange, written⟩ := c
  cases e with
  | received reader =>
    cases phase with
    | reading =>
      simp only [advance, Conn.hide, Phase.hide, ConnEvent.hide]
      split
      · exact congrArg some (seen_phase ⟨.reading, exchange, written⟩ rfl rfl)
      · exact congrArg some (seen_phase ⟨.reading, exchange, written⟩ rfl rfl)
    | _ => rfl
  | timedOut =>
    cases phase with
    | reading => exact congrArg some (seen_phase ⟨_, exchange, written⟩ rfl rfl)
    | _ => rfl
  | hungUp =>
    cases phase with
    | reading =>
      simp only [advance, Conn.hide, Phase.hide, ConnEvent.hide]
      split
      · exact congrArg some (seen_phase ⟨.reading, exchange, written⟩ rfl rfl)
      · rfl
    | _ => rfl
  | resolve readable expired drawn ts =>
    cases phase with
    | resolving parsed =>
      simp only [advance, Conn.hide, Phase.hide, ConnEvent.hide]
      split
      · split
        · split
          · exact congrArg some (seen_phase ⟨.resolving parsed, exchange, written⟩ rfl rfl)
          · exact congrArg some
              (seen_phase ⟨.resolving parsed, exchange, written⟩
                (Phase.hide_hide (.resolving parsed)) rfl)
        · rw [show parsed.hide.target = parsed.target from rfl]
          cases joinUpstream env.api cfg.upstream parsed.target with
          | error e =>
            exact congrArg some (seen_phase ⟨.resolving parsed, exchange, written⟩ rfl rfl)
          | ok url => simp [seen, Conn.hide, Phase.hide, Exchange.hide, requestRecord_hide]
      · exact congrArg some (seen_phase ⟨.resolving parsed, exchange, written⟩ rfl rfl)
    | _ => rfl
  | write result =>
    cases exchange with
    | none => cases phase <;> rfl
    | some x =>
      cases phase with
      | requesting => exact congrArg some (write_seen _ _ _ .recorded _ _ result)
      | answering terminal reply => exact congrArg some (write_seen _ _ _ .replying _ _ result)
      | _ => rfl
  | send =>
    cases exchange with
    | none => cases phase <;> rfl
    | some x =>
      cases phase with
      | recorded => exact congrArg some (seen_phase ⟨_, some x, written⟩ rfl rfl)
      | _ => rfl
  | refused ts elapsedMs =>
    cases exchange with
    | none => cases phase <;> rfl
    | some x =>
      cases phase with
      | recorded =>
        cases shutdown with
        | true => exact congrArg some (seen_phase ⟨_, some x, written⟩ rfl rfl)
        | false => rfl
      | sent =>
        cases shutdown with
        | true => exact congrArg some (seen_phase ⟨_, some x, written⟩ rfl rfl)
        | false => rfl
      | _ => rfl
  | sendFailed error ts elapsedMs =>
    cases exchange with
    | none => cases phase <;> rfl
    | some x =>
      cases phase with
      | sent => exact congrArg some (seen_phase ⟨_, some x, written⟩ rfl rfl)
      | _ => rfl
  | head status headers =>
    cases phase with
    | sent =>
      exact congrArg some
        (seen_phase ⟨_, exchange, written⟩ (Phase.hide_hide (.receiving status headers)) rfl)
    | _ => rfl
  | body chunks failure ts elapsedMs =>
    cases exchange with
    | none => cases phase <;> rfl
    | some x =>
      cases phase with
      | receiving status headers =>
        show Option.map seen (advance env cfg shutdown aborting runs
            ⟨.receiving status (Proxy.hide headers), some x.hide, written⟩
            (.body chunks failure ts elapsedMs)) =
          Option.map seen (advance env cfg shutdown aborting runs
            ⟨.receiving status headers, some x, written⟩ (.body chunks failure ts elapsedMs))
        simp only [advance]
        cases readResponseBody cfg.maxBodyBytes chunks failure with
        | error e => exact congrArg some (seen_phase ⟨_, some x, written⟩ rfl rfl)
        | ok body =>
          refine congrArg some (seen_phase ⟨_, some x, written⟩ ?_ rfl)
          rw [responseRecord_hide]
          exact congrArg (Phase.answering _) (Reply.hide_hide (.response _ _ _ _))
      | _ => rfl
  | replied =>
    cases phase with
    | replying => exact congrArg some (seen_phase ⟨_, exchange, written⟩ rfl rfl)
    | _ => rfl
  | aborted =>
    have hwaits : phase.hide.waits = phase.waits := by cases phase <;> rfl
    simp only [advance, Conn.hide, ConnEvent.hide, hwaits]
    split
    · exact congrArg some (seen_phase ⟨phase, exchange, written⟩ rfl rfl)
    · rfl

end

/-! ## all connections -/

section
variable {Url F R : Type}

/-- the proxy without what is sent on, and with what is hidden hidden -/
def State.hide (s : State F R) : State F R :=
  { s with conns := s.conns.map Conn.hide, forwarded := [], replies := [] }

variable (env : Env Url) (cfg : ProxyConfig R)

/-- events that differ in what is hidden only; requests are so when they are read alike -/
inductive Event.Alike : Event F R → Event F R → Prop
  | received (n : ℕ) (reader reader' : Reader)
      (h : (readRequest env.isMethod cfg.maxBodyBytes reader).map ParsedRequest.hide =
        (readRequest env.isMethod cfg.maxBodyBytes reader').map ParsedRequest.hide) :
      Alike (.conn n (.received reader)) (.conn n (.received reader'))
  | conn (n : ℕ) (e e' : ConnEvent F) (h : e.hide = e'.hide) : Alike (.conn n e) (.conn n e')
  | same (e : Event F R) : Alike e e

theorem all_isClosed_hide (conns : List (Conn F R)) :
    (conns.map Conn.hide).all Conn.isClosed = conns.all Conn.isClosed := by
  rw [List.all_map]
  congr 1
  funext ⟨phase, exchange, written⟩
  cases phase <;> rfl

theorem map_hide_ite {p q : Prop} [Decidable p] [Decidable q] {s t : State F R} (hpq : p ↔ q)
    (hst : s.hide = t.hide) :
    (if p then some s else none).map State.hide = (if q then some t else none).map State.hide := by
  by_cases hp : p
  · rw [if_pos hp, if_pos (hpq.mp hp)]
    exact congrArg some hst
  · rw [if_neg hp, if_neg fun hq => hp (hpq.mpr hq)]

variable [LinearOrder R] {env cfg}

/-- requests that are read alike -/
theorem received_alike {shutdown aborting : Bool} {runs : List R} (c : Conn F R)
    {reader reader' : Reader}
    (h : (readRequest env.isMethod cfg.maxBodyBytes reader).map ParsedRequest.hide =
      (readRequest env.isMethod cfg.maxBodyBytes reader').map ParsedRequest.hide) :
    (advance env cfg shutdown aborting runs c (.received reader)).map seen =
      (advance env cfg shutdown aborting runs c (.received reader')).map seen := by
  obtain ⟨phase, exchange, written⟩ := c
  cases phase with
  | reading =>
    simp only [advance]
    cases hread : readRequest env.isMethod cfg.maxBodyBytes reader with
    | error e =>
      cases hread' : readRequest env.isMethod cfg.maxBodyBytes reader' with
      | error e' =>
        rw [hread, hread'] at h
        obtain rfl := Except.error.inj h
        rfl
      | ok p' =>
        rw [hread, hread'] at h
        cases h
    | ok p =>
      cases hread' : readRequest env.isMethod cfg.maxBodyBytes reader' with
      | error e' =>
        rw [hread, hread'] at h
        cases h
      | ok p' =>
        rw [hread, hread'] at h
        have hp : p.hide = p'.hide := Except.ok.inj h
        simp [seen, Conn.hide, Phase.hide, hp]
  | _ => rfl

theorem advance_alike {shutdown aborting : Bool} {runs : List R} {c d : Conn F R}
    {e f : ConnEvent F} (hcd : c.hide = d.hide) (hef : e.hide = f.hide) :
    (advance env cfg shutdown aborting runs c e).map seen =
      (advance env cfg shutdown aborting runs d f).map seen := by
  rw [← advance_hide, hcd, hef, advance_hide]

theorem put_hide {s t : State F R} (hst : s.hide = t.hide) (n : ℕ)
    {r r' : Conn F R × Effect F R} (hr : seen r = seen r') :
    (s.put n r.1 r.2).hide = (t.put n r'.1 r'.2).hide := by
  have hconn : r.1.hide = r'.1.hide := congrArg Prod.fst hr
  have hlog : r.2.log = r'.2.log := congrArg Prod.snd hr
  obtain ⟨hserve, hshutdown, hruns, hconns, hlogs, -, -⟩ := State.mk.inj hst
  simp only [State.hide, State.put, List.map_set, hconn, hlog, hconns, hserve, hshutdown, hruns,
    hlogs]

theorem step_conn_hide {s t : State F R} (hst : s.hide = t.hide) (n : ℕ) {e f : ConnEvent F}
    (ha : ∀ (shutdown aborting : Bool) (runs : List R) (c d : Conn F R), c.hide = d.hide →
      (advance env cfg shutdown aborting runs c e).map seen =
        (advance env cfg shutdown aborting runs d f).map seen) :
    (step env cfg s (.conn n e)).map State.hide = (step env cfg t (.conn n f)).map State.hide := by
  obtain ⟨hserve, hshutdown, hruns, hconns, hlogs, -, -⟩ := State.mk.inj hst
  have haborting : s.isAborting = t.isAborting := by
    unfold State.isAborting
    rw [hserve]
  have hget : s.conns[n]?.map Conn.hide = t.conns[n]?.map Conn.hide := by
    rw [← List.getElem?_map, ← List.getElem?_map, hconns]
  simp only [step, hshutdown, hruns, haborting]
  cases hc : s.conns[n]? with
  | none =>
    rw [hc] at hget
    rw [Option.map_eq_none_iff.mp hget.symm]
    rfl
  | some c =>
    rw [hc] at hget
    obtain ⟨d, hd, hcd⟩ := Option.map_eq_some_iff.mp hget.symm
    rw [hd]
    have hone := ha t.shutdown t.isAborting t.runs c d hcd.symm
    show Option.map State.hide ((advance env cfg t.shutdown t.isAborting t.runs c e).bind
        fun r => some (s.put n r.1 r.2)) =
      Option.map State.hide ((advance env cfg t.shutdown t.isAborting t.runs d f).bind
        fun r => some (t.put n r.1 r.2))
    cases hr : advance env cfg t.shutdown t.isAborting t.runs c e with
    | none =>
      rw [hr] at hone
      rw [Option.map_eq_none_iff.mp hone.symm]
      rfl
    | some r =>
      rw [hr] at hone
      obtain ⟨r', hr', hseen⟩ := Option.map_eq_some_iff.mp hone.symm
      rw [hr']
      exact congrArg some (put_hide hst n hseen.symm)

/-- a step of the proxy itself -/
theorem step_self_hide {s t : State F R} (hst : s.hide = t.hide) (e : Event F R)
    (he : ∀ n ev, e ≠ .conn n ev) :
    (step env cfg s e).map State.hide = (step env cfg t e).map State.hide := by
  obtain ⟨hserve, hshutdown, hruns, hconns, hlogs, -, -⟩ := State.mk.inj hst
  have hclosed : s.conns.all Conn.isClosed = t.conns.all Conn.isClosed := by
    rw [← all_isClosed_hide, hconns, all_isClosed_hide]
  cases e with
  | conn n ev => exact absurd rfl (he n ev)
  | newRun run => simp [step, State.hide, hserve, hshutdown, hruns, hconns, hlogs]
  | cancel => simp [step, State.hide, hserve, hruns, hconns, hlogs]
  | crash =>
    have hcrash : ∀ conns : List (Conn F R),
        (conns.map ({ · with phase := .closed })).map Conn.hide =
          (conns.map Conn.hide).map ({ · with phase := .closed }) := by
      intro conns
      rw [List.map_map, List.map_map]
      rfl
    simp only [step, Option.map_some, State.hide, hcrash, hshutdown, hruns, hconns, hlogs]
  | accept =>
    refine map_hide_ite (by rw [hserve]) ?_
    simp [State.hide, hserve, hshutdown, hruns, hconns, hlogs]
  | acceptFailed =>
    refine map_hide_ite (by rw [hserve]) ?_
    simp [State.hide, hshutdown, hruns, hconns, hlogs]
  | drain =>
    refine map_hide_ite (by rw [hserve, hshutdown]) ?_
    simp [State.hide, hshutdown, hruns, hconns, hlogs]
  | timeUp =>
    refine map_hide_ite (by rw [hserve]) ?_
    simp [State.hide, hshutdown, hruns, hconns, hlogs]
  | stop =>
    refine map_hide_ite (by rw [hserve, hclosed]) ?_
    simp [State.hide, hshutdown, hruns, hconns, hlogs]
  | start =>
    refine map_hide_ite (by rw [hserve, hclosed]) ?_
    simp [State.hide, hruns, hconns, hlogs]

theorem step_hide {s t : State F R} {e f : Event F R} (hst : s.hide = t.hide)
    (h : Event.Alike env cfg e f) :
    (step env cfg s e).map State.hide = (step env cfg t f).map State.hide := by
  cases h with
  | received n reader reader' h =>
    exact step_conn_hide hst n fun _ _ _ _ _ hcd =>
      (advance_alike hcd rfl).trans (received_alike _ h)
  | conn n e e' h => exact step_conn_hide hst n fun _ _ _ _ _ hcd => advance_alike hcd h
  | same e =>
    by_cases he : ∃ n ev, e = .conn n ev
    · obtain ⟨n, ev, rfl⟩ := he
      exact step_conn_hide hst n fun _ _ _ _ _ hcd => advance_alike hcd rfl
    · have he : ∀ n ev, e ≠ .conn n ev := fun n ev h => he ⟨n, ev, h⟩
      exact step_self_hide hst e he

/-- **The values of the sensitive headers never reach a log.**  Two runs that differ in nothing but
these values, in what the clients send and in what the upstream answers, write the same logs. -/
theorem logs_hide {runs : List R} {events events' : List (Event F R)}
    (h : List.Forall₂ (Event.Alike env cfg) events events') :
    (run (step env cfg) (State.init runs) events).map State.logs =
      (run (step env cfg) (State.init runs) events').map State.logs := by
  have hrun := run_view (v := State.hide) (E := Event.Alike env cfg)
    (fun _ _ _ _ hst hef => step_hide hst hef) h _ _
    (rfl : (State.init runs : State F R).hide = _)
  have hlogs : (State.logs : State F R → _) = State.logs ∘ State.hide := rfl
  rw [hlogs, ← Option.map_map, hrun, Option.map_map]

end

/-- a request with a key -/
def withKey (key : String) : Reader :=
  .new (Pieces.push (Redact.utf8
    ("GET /models HTTP/1.1\r\nX-Api-Key: " ++ key ++ "\r\n\r\n").toList) []) none

/-- it is written down and sent -/
def sendWithKey (key : String) : List (Event Unit ℕ) :=
  [.accept, .conn 0 (.received (withKey key)), .conn 0 (.resolve true false "a" ()),
    .conn 0 (.write .written), .conn 0 .send]

theorem logs_hide_key :
    (run (step oneHost oneLog) (.init []) (sendWithKey "one")).map State.logs =
      (run (step oneHost oneLog) (.init []) (sendWithKey "two")).map State.logs ∧
    (run (step oneHost oneLog) (.init []) (sendWithKey "one")).map State.forwarded ≠
      (run (step oneHost oneLog) (.init []) (sendWithKey "two")).map State.forwarded := by
  refine ⟨logs_hide (.cons (.same _) (.cons (.received 0 _ _ ?_) (.cons (.same _)
    (.cons (.same _) (.cons (.same _) .nil))))), ?_⟩
  · decide +kernel
  · decide +kernel

end Moagan.Audit.Proxy
