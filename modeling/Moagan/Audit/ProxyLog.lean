import Moagan.Audit.Proxy

/-!
# The log of the audit proxy (`src/audit/proxy.rs`)

* `ConnOk`         what a connection has written, by where it is
* `Advanced`       what one step of a connection does
* `Inv`            the logs hold the records of the connections, each under an id of its own
* `step_inv`       every step keeps it, when the ids are new
* `run_log`        so it holds in every state that is reached
-/

namespace Moagan.Audit.Proxy

open Runs

section
variable {Url F R : Type} (env : Env Url) (cfg : ProxyConfig R)

/-! ## one connection -/

/-- the exchange is the one of a request that was accepted -/
structure ExchangeOk (x : Exchange F R) : Prop where
  request : ∃ ts, x.request = requestRecord env cfg ts x.id x.upstreamUrl x.parsed
  url : joinUpstream env.api cfg.upstream x.parsed.target = .ok x.upstreamUrl
  parsed : ∃ reader, readRequest env.isMethod cfg.maxBodyBytes reader = .ok x.parsed

/-- the record that ends an exchange -/
def IsTerminal (x : Exchange F R) (t : AuditRecord F) : Prop :=
  (∃ ts elapsedMs error, t = errorRecord env ts x.id elapsedMs error) ∨
    ∃ ts elapsedMs status headers body,
      t = responseRecord env cfg ts x.id elapsedMs status headers body

/-- a client gets the answer that is recorded -/
def Answers (x : Exchange F R) (t : AuditRecord F) (reply : Reply) : Prop :=
  ∀ version status headers body, reply = .response version status headers body →
    version = x.parsed.version ∧
      ∃ ts elapsedMs, t = responseRecord env cfg ts x.id elapsedMs status headers body

/-- no exchange, or one with both its records -/
def Ended (c : Conn F R) : Prop :=
  (c.exchange = none ∧ c.written = []) ∨
    ∃ x t, c.exchange = some x ∧ ExchangeOk env cfg x ∧ c.written = [x.request, t] ∧
      IsTerminal env cfg x t

/-- an exchange of which these records are written -/
def Has (c : Conn F R) (records : Exchange F R → List (AuditRecord F)) : Prop :=
  ∃ x, c.exchange = some x ∧ ExchangeOk env cfg x ∧ c.written = records x

def ConnOk (c : Conn F R) : Prop :=
  match c.phase with
  | .reading => c.exchange = none ∧ c.written = []
  | .resolving parsed => (c.exchange = none ∧ c.written = []) ∧
      ∃ reader, readRequest env.isMethod cfg.maxBodyBytes reader = .ok parsed
  | .requesting => Has env cfg c fun _ => []
  | .recorded => Has env cfg c fun x => [x.request]
  | .sent => Has env cfg c fun x => [x.request]
  | .receiving _ _ => Has env cfg c fun x => [x.request]
  | .answering terminal reply =>
    ∃ x, c.exchange = some x ∧ ExchangeOk env cfg x ∧ c.written = [x.request] ∧
      IsTerminal env cfg x terminal ∧ Answers env cfg x terminal reply
  | .replying => Ended env cfg c
  | .closed => Ended env cfg c ∨ Has env cfg c (fun _ => []) ∨ Has env cfg c fun x => [x.request]

/-- what a step of a connection does -/
structure Advanced (c : Conn F R) (e : ConnEvent F) (c' : Conn F R) (effect : Effect F R) :
    Prop where
  ok : ConnOk env cfg c'
  exchange : c'.exchange = c.exchange ∨ (c.exchange = none ∧ c'.written = [] ∧
    ∃ readable expired ts x, c'.exchange = some x ∧ e = .resolve readable expired x.id ts)
  silent : effect.log = none → c'.written = c.written
  log : ∀ p r, effect.log = some (p, r) → c'.written = c.written ++ [r] ∧
    c'.exchange = c.exchange ∧ ∃ x, c.exchange = some x ∧ p = x.logPath ∧ r.id = x.id
  forward : ∀ f, effect.forward = some f → ∃ x, c.exchange = some x ∧ ExchangeOk env cfg x ∧
    c.written = [x.request] ∧ f = forwardOf env x
  reply : ∀ version status headers body,
    effect.reply = some (.response version status headers body) → ∃ x, c.exchange = some x ∧
      version = x.parsed.version ∧ ∃ ts elapsedMs, c'.written =
        [x.request, responseRecord env cfg ts x.id elapsedMs status headers body]

variable {env cfg} {c c' : Conn F R} {e : ConnEvent F}

/-- a step that writes and sends nothing, and has no answer of the upstream for the client -/
theorem Advanced.quiet (hok : ConnOk env cfg c') (hx : c'.exchange = c.exchange)
    (hw : c'.written = c.written) : Advanced env cfg c e c' .none where
  ok := hok
  exchange := .inl hx
  silent := fun _ => hw
  log := fun _ _ h => nomatch h
  forward := fun _ h => nomatch h
  reply := fun _ _ _ _ h => nomatch h

theorem Advanced.refuse {status : ℕ} {message : String} (hok : ConnOk env cfg c')
    (hx : c'.exchange = c.exchange) (hw : c'.written = c.written) :
    Advanced env cfg c e c' (.ofReply (.error status message)) where
  ok := hok
  exchange := .inl hx
  silent := fun _ => hw
  log := fun _ _ h => nomatch h
  forward := fun _ h => nomatch h
  reply := fun _ _ _ _ h => nomatch h

theorem isTerminal_id {x : Exchange F R} {t : AuditRecord F} (h : IsTerminal env cfg x t) :
    t.id = x.id := by
  obtain ⟨_, _, _, rfl⟩ | ⟨_, _, _, _, _, rfl⟩ := h
  · rfl
  · rfl

theorem exchangeOk_id {x : Exchange F R} (h : ExchangeOk env cfg x) : x.request.id = x.id := by
  obtain ⟨ts, hts⟩ := h.request
  rw [hts]
  rfl

/-- an exchange that fails has its second record on the way -/
theorem Advanced.failed {x : Exchange F R} (hc : Has env cfg c fun x => [x.request])
    (hx : c.exchange = some x) (ts : F) (elapsedMs : ℕ) (error : Text) (status : ℕ)
    (message : String) :
    Advanced env cfg c e (c.answer (errorRecord env ts x.id elapsedMs error)
      (.error status message)) .none := by
  obtain ⟨y, hy, hok, hw⟩ := hc
  obtain rfl := Option.some.inj (hx.symm.trans hy)
  exact .quiet ⟨x, hx, hok, hw, .inl ⟨ts, elapsedMs, error, rfl⟩,
    fun _ _ _ _ h => nomatch h⟩ rfl rfl

/-- a closed connection has no record, the one of its request, or both -/
theorem connOk_closed (h : ConnOk env cfg c) : ConnOk env cfg { c with phase := .closed } := by
  obtain ⟨phase, exchange, written⟩ := c
  cases phase with
  | reading => exact .inl (.inl h)
  | resolving parsed => exact .inl (.inl h.1)
  | requesting => exact .inr (.inl h)
  | recorded => exact .inr (.inr h)
  | sent => exact .inr (.inr h)
  | receiving status headers => exact .inr (.inr h)
  | answering terminal reply =>
    obtain ⟨x, hx, hxok, hw, -, -⟩ := h
    exact .inr (.inr ⟨x, hx, hxok, hw⟩)
  | replying => exact .inl h
  | closed => exact h

/-- the write of a record of an exchange -/
theorem write_spec {x : Exchange F R} {record : AuditRecord F} {next : Phase F}
    {reply : Option Reply} {result : WriteResult} (hx : c.exchange = some x)
    (hid : record.id = x.id) (hc : ConnOk env cfg c)
    (hnext : ConnOk env cfg ⟨next, c.exchange, c.written ++ [record]⟩)
    (hclosed : ConnOk env cfg ⟨.closed, c.exchange, c.written ++ [record]⟩)
    (hreply : ∀ version status headers body,
      reply = some (.response version status headers body) → version = x.parsed.version ∧
        ∃ ts elapsedMs, c.written ++ [record] =
          [x.request, responseRecord env cfg ts x.id elapsedMs status headers body]) :
    Advanced env cfg c e (c.write x.logPath record next reply result).1
      (c.write x.logPath record next reply result).2 := by
  cases result with
  | written =>
    refine ⟨hnext, .inl rfl, (fun h => nomatch h), ?_, (fun _ h => nomatch h), ?_⟩
    · intro p r h
      obtain ⟨rfl, rfl⟩ := Prod.mk.inj (Option.some.inj h)
      exact ⟨rfl, rfl, x, hx, rfl, hid⟩
    · intro version status headers body h
      obtain ⟨hversion, hwritten⟩ := hreply version status headers body h
      exact ⟨x, hx, hversion, hwritten⟩
  | failed => exact .quiet (connOk_closed hc) rfl rfl
  | unsynced =>
    refine ⟨hclosed, .inl rfl, (fun h => nomatch h), ?_, (fun _ h => nomatch h),
      fun _ _ _ _ h => nomatch h⟩
    intro p r h
    obtain ⟨rfl, rfl⟩ := Prod.mk.inj (Option.some.inj h)
    exact ⟨rfl, rfl, x, hx, rfl, hid⟩

theorem advance_spec [LinearOrder R] {shutdown aborting : Bool} {runs : List R}
    {effect : Effect F R} (hc : ConnOk env cfg c)
    (h : advance env cfg shutdown aborting runs c e = some (c', effect)) :
    Advanced env cfg c e c' effect := by
  obtain ⟨phase, exchange, written⟩ := c
  cases e with
  | received reader =>
    cases phase with
    | reading =>
      simp only [advance] at h
      cases hread : readRequest env.isMethod cfg.maxBodyBytes reader with
      | error e =>
        rw [hread] at h
        obtain ⟨rfl, rfl⟩ := Prod.mk.inj (Option.some.inj h)
        exact .refuse (.inl hc) rfl rfl
      | ok parsed =>
        rw [hread] at h
        obtain ⟨rfl, rfl⟩ := Prod.mk.inj (Option.some.inj h)
        exact .quiet ⟨hc, reader, hread⟩ rfl rfl
    | _ => cases h
  | timedOut =>
    cases phase with
    | reading =>
      obtain ⟨rfl, rfl⟩ := Prod.mk.inj (Option.some.inj h)
      exact .refuse (.inl hc) rfl rfl
    | _ => cases h
  | hungUp =>
    cases phase with
    | reading =>
      simp only [advance] at h
      split at h
      · obtain ⟨rfl, rfl⟩ := Prod.mk.inj (Option.some.inj h)
        exact .quiet (connOk_closed hc) rfl rfl
      · cases h
    | _ => cases h
  | resolve readable expired id ts =>
    cases phase with
    | resolving parsed =>
      simp only [advance] at h
      split at h
      · split at h
        · split at h
          · obtain ⟨rfl, rfl⟩ := Prod.mk.inj (Option.some.inj h)
            exact .refuse (.inl hc.1) rfl rfl
          · obtain ⟨rfl, rfl⟩ := Prod.mk.inj (Option.some.inj h)
            exact .quiet hc rfl rfl
        · split at h
          · obtain ⟨rfl, rfl⟩ := Prod.mk.inj (Option.some.inj h)
            exact .quiet (connOk_closed hc) rfl rfl
          · rename_i url hurl
            obtain ⟨rfl, rfl⟩ := Prod.mk.inj (Option.some.inj h)
            obtain ⟨⟨hnone, hwritten⟩, hparsed⟩ := hc
            refine ⟨⟨_, rfl, ⟨⟨ts, rfl⟩, hurl, hparsed⟩, hwritten⟩,
              .inr ⟨hnone, hwritten, readable, expired, ts, _, rfl, rfl⟩, fun _ => rfl,
              (fun _ _ h => nomatch h), (fun _ h => nomatch h), fun _ _ _ _ h => nomatch h⟩
      · obtain ⟨rfl, rfl⟩ := Prod.mk.inj (Option.some.inj h)
        exact .quiet (connOk_closed hc) rfl rfl
    | _ => cases h
  | write result =>
    cases phase with
    | requesting =>
      have hok := hc
      obtain ⟨x, rfl, hx, rfl⟩ := hc
      obtain ⟨rfl, rfl⟩ := Prod.mk.inj (Option.some.inj h)
      exact write_spec rfl (exchangeOk_id hx) hok ⟨x, rfl, hx, rfl⟩ (.inr (.inr ⟨x, rfl, hx, rfl⟩))
        fun _ _ _ _ h => nomatch h
    | answering terminal reply =>
      have hok := hc
      obtain ⟨x, rfl, hx, rfl, hterminal, hanswers⟩ := hc
      obtain ⟨rfl, rfl⟩ := Prod.mk.inj (Option.some.inj h)
      refine write_spec rfl (isTerminal_id hterminal) hok
        (.inr ⟨x, terminal, rfl, hx, rfl, hterminal⟩)
        (.inl (.inr ⟨x, terminal, rfl, hx, rfl, hterminal⟩)) ?_
      intro version status headers body heq
      obtain ⟨hversion, ts, elapsedMs, hrecord⟩ :=
        hanswers version status headers body (Option.some.inj heq)
      exact ⟨hversion, ts, elapsedMs, by rw [hrecord]; rfl⟩
    | _ => cases exchange <;> cases h
  | send =>
    cases phase with
    | recorded =>
      have hok := hc
      obtain ⟨x, rfl, hx, rfl⟩ := hc
      obtain ⟨rfl, rfl⟩ := Prod.mk.inj (Option.some.inj h)
      refine ⟨hok, .inl rfl, fun _ => rfl, (fun _ _ h => nomatch h), ?_,
        fun _ _ _ _ h => nomatch h⟩
      intro f hf
      exact ⟨x, rfl, hx, rfl, (Option.some.inj hf).symm⟩
    | _ => cases exchange <;> cases h
  | refused ts elapsedMs =>
    cases exchange with
    | none => cases phase <;> cases h
    | some x =>
      cases phase with
      | recorded =>
        simp only [advance] at h
        split at h
        · obtain ⟨rfl, rfl⟩ := Prod.mk.inj (Option.some.inj h)
          exact .failed hc rfl ts elapsedMs _ _ _
        · cases h
      | sent =>
        simp only [advance] at h
        split at h
        · obtain ⟨rfl, rfl⟩ := Prod.mk.inj (Option.some.inj h)
          exact .failed hc rfl ts elapsedMs _ _ _
        · cases h
      | _ => cases h
  | sendFailed error ts elapsedMs =>
    cases exchange with
    | none => cases phase <;> cases h
    | some x =>
      cases phase with
      | sent =>
        obtain ⟨rfl, rfl⟩ := Prod.mk.inj (Option.some.inj h)
        exact .failed hc rfl ts elapsedMs _ _ _
      | _ => cases h
  | head status headers =>
    cases phase with
    | sent =>
      obtain ⟨rfl, rfl⟩ := Prod.mk.inj (Option.some.inj h)
      exact .quiet hc rfl rfl
    | _ => cases h
  | body chunks failure ts elapsedMs =>
    cases phase with
    | receiving status headers =>
      have hok := hc
      obtain ⟨x, rfl, hx, rfl⟩ := hc
      simp only [advance] at h
      split at h
      · obtain ⟨rfl, rfl⟩ := Prod.mk.inj (Option.some.inj h)
        exact .failed hok rfl ts elapsedMs _ _ _
      · rename_i body _
        obtain ⟨rfl, rfl⟩ := Prod.mk.inj (Option.some.inj h)
        refine .quiet ⟨x, rfl, hx, rfl, .inr ⟨ts, elapsedMs, status, headers, body, rfl⟩, ?_⟩
          rfl rfl
        intro version' status' headers' body' heq
        obtain ⟨rfl, rfl, rfl, rfl⟩ := Reply.response.inj heq
        exact ⟨rfl, ts, elapsedMs, rfl⟩
    | _ => cases exchange <;> cases h
  | replied =>
    cases phase with
    | replying =>
      obtain ⟨rfl, rfl⟩ := Prod.mk.inj (Option.some.inj h)
      exact .quiet (connOk_closed hc) rfl rfl
    | _ => cases h
  | aborted =>
    simp only [advance] at h
    split at h
    · obtain ⟨rfl, rfl⟩ := Prod.mk.inj (Option.some.inj h)
      exact .quiet (connOk_closed hc) rfl rfl
    · cases h

end

/-! ## all connections -/

section
variable {Url F R : Type} (env : Env Url) (cfg : ProxyConfig R)

/-- the connection of a number, with its exchange -/
def State.Has (s : State F R) (n : ℕ) (c : Conn F R) (x : Exchange F R) : Prop :=
  s.conns[n]? = some c ∧ c.exchange = some x

/-- the id that `Uuid::now_v7` draws -/
def Event.drawnId : Event F R → Option String
  | .conn _ (.resolve _ _ id _) => some id
  | _ => none

/-- what is drawn is new -/
def Fresh (s : State F R) (e : Event F R) : Prop :=
  ∀ id ∈ e.drawnId, ∀ c ∈ s.conns, ∀ x ∈ c.exchange, x.id ≠ id

instance (s : State F R) (e : Event F R) : Decidable (Fresh s e) :=
  inferInstanceAs (Decidable (∀ id ∈ e.drawnId, ∀ c ∈ s.conns, ∀ x ∈ c.exchange, x.id ≠ id))

structure Inv (s : State F R) : Prop where
  conns : ∀ (n : ℕ) c, s.conns[n]? = some c → ConnOk env cfg c
  ids : ∀ n m c d x y, s.Has n c x → s.Has m d y → x.id = y.id → n = m
  known : ∀ path r, r ∈ s.logs path → ∃ n c x, s.Has n c x ∧ x.logPath = path ∧ r.id = x.id
  own : ∀ n c x, s.Has n c x → (s.logs x.logPath).filter (·.id = x.id) = c.written
  forwarded : ∀ n f, (n, f) ∈ s.forwarded → ∃ c x, s.Has n c x ∧ ExchangeOk env cfg x ∧
    f = forwardOf env x ∧ x.request ∈ s.logs x.logPath
  replies : ∀ n version status headers body,
    (n, Reply.response version status headers body) ∈ s.replies → ∃ c x ts elapsedMs,
      s.Has n c x ∧ version = x.parsed.version ∧
        responseRecord env cfg ts x.id elapsedMs status headers body ∈ s.logs x.logPath

theorem inv_init (runs : List R) : Inv env cfg (State.init runs : State F R) where
  conns := fun _ _ h => nomatch h
  ids := fun _ _ _ _ _ _ h => nomatch h.1
  known := fun _ _ h => nomatch h
  own := fun _ _ _ h => nomatch h.1
  forwarded := fun _ _ h => nomatch h
  replies := fun _ _ _ _ _ h => nomatch h

variable {env cfg} {s s' : State F R}

/-- a change that leaves the exchanges and their records as they are -/
theorem Inv.relabel (hi : Inv env cfg s)
    (hconns : ∀ (n : ℕ) c', s'.conns[n]? = some c' → ConnOk env cfg c')
    (hold : ∀ n c' x, s'.Has n c' x → ∃ c, s.Has n c x ∧ c'.written = c.written)
    (hnew : ∀ n c x, s.Has n c x → ∃ c', s'.Has n c' x)
    (hlogs : s'.logs = s.logs) (hforwarded : s'.forwarded = s.forwarded)
    (hreplies : s'.replies = s.replies) : Inv env cfg s' where
  conns := hconns
  ids := by
    intro n m c d x y hx hy
    obtain ⟨c₀, hx₀, -⟩ := hold n c x hx
    obtain ⟨d₀, hy₀, -⟩ := hold m d y hy
    exact hi.ids n m c₀ d₀ x y hx₀ hy₀
  known := by
    intro path r hr
    rw [hlogs] at hr
    obtain ⟨n, c, x, hx, hpath⟩ := hi.known path r hr
    obtain ⟨c', hx'⟩ := hnew n c x hx
    exact ⟨n, c', x, hx', hpath⟩
  own := by
    intro n c' x hx
    obtain ⟨c, hx₀, hw⟩ := hold n c' x hx
    rw [hlogs, hw]
    exact hi.own n c x hx₀
  forwarded := by
    intro n f hf
    rw [hforwarded] at hf
    obtain ⟨c, x, hx, hrest⟩ := hi.forwarded n f hf
    obtain ⟨c', hx'⟩ := hnew n c x hx
    rw [hlogs]
    exact ⟨c', x, hx', hrest⟩
  replies := by
    intro n version status headers body hr
    rw [hreplies] at hr
    obtain ⟨c, x, ts, elapsedMs, hx, hrest⟩ := hi.replies n version status headers body hr
    obtain ⟨c', hx'⟩ := hnew n c x hx
    rw [hlogs]
    exact ⟨c', x, ts, elapsedMs, hx', hrest⟩

/-! ## a step of a connection -/

variable {n : ℕ} {c c' : Conn F R} {e : ConnEvent F} {effect : Effect F R}

theorem Advanced.keeps (ha : Advanced env cfg c e c' effect) {x : Exchange F R}
    (hx : c.exchange = some x) : c'.exchange = some x := by
  obtain hsame | ⟨hnone, -⟩ := ha.exchange
  · exact hsame.trans hx
  · rw [hnone] at hx
    cases hx

/-- the exchange of a connection that takes a step is the one it had, or has a new id -/
theorem Advanced.isNew (ha : Advanced env cfg c e c' effect) (hfresh : Fresh s (.conn n e))
    {x : Exchange F R} (hx : c'.exchange = some x) :
    c.exchange = some x ∨
      (c.exchange = none ∧ c'.written = [] ∧ ∀ m d y, s.Has m d y → y.id ≠ x.id) := by
  obtain hsame | ⟨hnone, hwritten, readable, expired, ts, x', hx', rfl⟩ := ha.exchange
  · exact .inl (hsame ▸ hx)
  · obtain rfl := Option.some.inj (hx.symm.trans hx')
    exact .inr ⟨hnone, hwritten, fun _ d y hy =>
      hfresh x.id rfl d (List.mem_of_getElem? hy.1) y hy.2⟩

variable [LinearOrder R]

theorem mem_logs_put {path : LogPath R} {r : AuditRecord F} :
    r ∈ (s.put n c effect).logs path ↔ r ∈ s.logs path ∨ effect.log = some (path, r) := by
  show r ∈ s.logs path ++ (effect.log.toList.filter (·.1 = path)).map Prod.snd ↔ _
  rw [List.mem_append]
  refine or_congr_right ?_
  cases effect.log with
  | none => simp
  | some e =>
    obtain ⟨p, t⟩ := e
    by_cases hp : p = path
    · subst hp
      simp [eq_comm]
    · simp [hp]

/-- the records of an id, behind the write of a record -/
theorem filter_logs_put (n : ℕ) (c : Conn F R) (effect : Effect F R) (path : LogPath R)
    (id : String) :
    ((s.put n c effect).logs path).filter (·.id = id) = (s.logs path).filter (·.id = id) ++
      ((effect.log.toList.filter fun e => e.1 = path ∧ e.2.id = id).map Prod.snd) := by
  show (s.logs path ++ (effect.log.toList.filter (·.1 = path)).map Prod.snd).filter
    (·.id = id) = _
  rw [List.filter_append, List.filter_map, List.filter_filter]
  congr 3
  funext e
  simp [and_comm]

theorem has_put (hc : s.conns[n]? = some c) {m : ℕ} {d : Conn F R} {y : Exchange F R} :
    (s.put n c' effect).Has m d y ↔
      (m = n ∧ d = c' ∧ c'.exchange = some y) ∨ (m ≠ n ∧ s.Has m d y) := by
  have hlt : n < s.conns.length := (List.getElem?_eq_some_iff.mp hc).1
  have hget : (s.put n c' effect).conns[m]? = if n = m then some c' else s.conns[m]? := by
    show (s.conns.set n c')[m]? = _
    rw [List.getElem?_set, if_pos hlt]
  unfold State.Has
  rw [hget]
  by_cases hm : n = m
  · rw [if_pos hm]
    constructor
    · intro ⟨hd, hy⟩
      obtain rfl := Option.some.inj hd
      exact .inl ⟨hm.symm, rfl, hy⟩
    · rintro (⟨-, rfl, hy⟩ | ⟨hne, -⟩)
      · exact ⟨rfl, hy⟩
      · exact absurd hm.symm hne
  · rw [if_neg hm]
    constructor
    · intro h
      exact .inr ⟨fun h' => hm h'.symm, h⟩
    · rintro (⟨h, -⟩ | ⟨-, h⟩)
      · exact absurd h.symm hm
      · exact h

theorem Advanced.has (ha : Advanced env cfg c e c' effect) (hc : s.conns[n]? = some c) {m : ℕ}
    {d : Conn F R} {y : Exchange F R} (h : s.Has m d y) : ∃ d', (s.put n c' effect).Has m d' y := by
  by_cases hm : m = n
  · subst hm
    obtain rfl := Option.some.inj (hc.symm.trans h.1)
    exact ⟨c', (has_put hc).mpr (.inl ⟨rfl, rfl, ha.keeps h.2⟩)⟩
  · exact ⟨d, (has_put hc).mpr (.inr ⟨hm, h⟩)⟩

theorem put_own (hi : Inv env cfg s) (hc : s.conns[n]? = some c)
    (ha : Advanced env cfg c e c' effect) (hfresh : Fresh s (.conn n e)) {m : ℕ} {d : Conn F R}
    {y : Exchange F R} (h : (s.put n c' effect).Has m d y) :
    ((s.put n c' effect).logs y.logPath).filter (·.id = y.id) = d.written := by
  rw [filter_logs_put]
  obtain ⟨rfl, rfl, hy⟩ | ⟨hm, hy⟩ := (has_put hc).mp h
  · cases hlog : effect.log with
    | none =>
      rw [ha.silent hlog, Option.toList_none, List.filter_nil, List.map_nil, List.append_nil]
      obtain hold | ⟨hnone, hwritten, hnew⟩ := ha.isNew hfresh hy
      · exact hi.own _ c y ⟨hc, hold⟩
      · rw [← ha.silent hlog, hwritten, List.filter_eq_nil_iff]
        intro r hr hid
        obtain ⟨k, b, x, hx, -, hrid⟩ := hi.known _ r hr
        exact hnew k b x hx (hrid.symm.trans (of_decide_eq_true hid))
    | some pr =>
      obtain ⟨p, r⟩ := pr
      obtain ⟨hwritten, hex, x, hx, rfl, hid⟩ := ha.log p r hlog
      obtain rfl := Option.some.inj (hy.symm.trans (hex.trans hx))
      rw [hwritten, hi.own _ c y ⟨hc, hx⟩]
      simp [hid]
  · cases hlog : effect.log with
    | none =>
      rw [Option.toList_none, List.filter_nil, List.map_nil, List.append_nil]
      exact hi.own m d y hy
    | some pr =>
      obtain ⟨p, r⟩ := pr
      obtain ⟨-, -, x, hx, -, hid⟩ := ha.log p r hlog
      have hne : ¬ r.id = y.id := fun heq =>
        hm (hi.ids m n d c y x hy ⟨hc, hx⟩ (heq.symm.trans hid))
      rw [hi.own m d y hy]
      simp [hne]

theorem put_inv (hi : Inv env cfg s) (hc : s.conns[n]? = some c)
    (ha : Advanced env cfg c e c' effect) (hfresh : Fresh s (.conn n e)) :
    Inv env cfg (s.put n c' effect) where
  conns := by
    intro m d hd
    have hget : (s.put n c' effect).conns[m]? = if n = m then
        (if n < s.conns.length then some c' else none) else s.conns[m]? := List.getElem?_set
    rw [hget] at hd
    split at hd
    · split at hd
      · obtain rfl := Option.some.inj hd
        exact ha.ok
      · cases hd
    · exact hi.conns m d hd
  ids := by
    intro m k d b x y hm hk hid
    obtain ⟨rfl, rfl, hx⟩ | ⟨-, hx⟩ := (has_put hc).mp hm
    · obtain ⟨rfl, rfl, -⟩ | ⟨-, hy⟩ := (has_put hc).mp hk
      · rfl
      · obtain hold | ⟨-, -, hnew⟩ := ha.isNew hfresh hx
        · exact hi.ids _ _ _ _ _ _ ⟨hc, hold⟩ hy hid
        · exact absurd hid.symm (hnew k b y hy)
    · obtain ⟨rfl, rfl, hy⟩ | ⟨-, hy⟩ := (has_put hc).mp hk
      · obtain hold | ⟨-, -, hnew⟩ := ha.isNew hfresh hy
        · exact hi.ids _ _ _ _ _ _ hx ⟨hc, hold⟩ hid
        · exact absurd hid (hnew m d x hx)
      · exact hi.ids _ _ _ _ _ _ hx hy hid
  known := by
    intro path r hr
    obtain hr | hr := mem_logs_put.mp hr
    · obtain ⟨m, d, y, hy, hrest⟩ := hi.known path r hr
      obtain ⟨d', hd'⟩ := ha.has hc hy
      exact ⟨m, d', y, hd', hrest⟩
    · obtain ⟨-, -, x, hx, rfl, hid⟩ := ha.log path r hr
      exact ⟨n, c', x, (has_put hc).mpr (.inl ⟨rfl, rfl, ha.keeps hx⟩), rfl, hid⟩
  own := fun _ _ _ h => put_own hi hc ha hfresh h
  forwarded := by
    intro m f hf
    obtain hf | hf := List.mem_append.mp hf
    · obtain ⟨d, x, hx, hok, heq, hmem⟩ := hi.forwarded m f hf
      obtain ⟨d', hd'⟩ := ha.has hc hx
      exact ⟨d', x, hd', hok, heq, mem_logs_put.mpr (.inl hmem)⟩
    · obtain ⟨f', hf', heq⟩ := List.mem_map.mp hf
      obtain ⟨rfl, rfl⟩ := Prod.mk.inj heq
      obtain ⟨x, hx, hok, hwritten, hforward⟩ := ha.forward f' (Option.mem_toList.mp hf')
      have hown := hi.own _ c x ⟨hc, hx⟩
      refine ⟨c', x, (has_put hc).mpr (.inl ⟨rfl, rfl, ha.keeps hx⟩), hok, hforward,
        mem_logs_put.mpr (.inl (List.mem_of_mem_filter (p := (·.id = x.id)) ?_))⟩
      rw [hown, hwritten]
      exact List.mem_cons_self
  replies := by
    intro m version status headers body hr
    obtain hr | hr := List.mem_append.mp hr
    · obtain ⟨d, x, ts, elapsedMs, hx, hversion, hmem⟩ :=
        hi.replies m version status headers body hr
      obtain ⟨d', hd'⟩ := ha.has hc hx
      exact ⟨d', x, ts, elapsedMs, hd', hversion, mem_logs_put.mpr (.inl hmem)⟩
    · obtain ⟨reply, hreply, heq⟩ := List.mem_map.mp hr
      obtain ⟨rfl, rfl⟩ := Prod.mk.inj heq
      obtain ⟨x, hx, hversion, ts, elapsedMs, hwritten⟩ :=
        ha.reply version status headers body (Option.mem_toList.mp hreply)
      have hhas : (s.put n c' effect).Has n c' x :=
        (has_put hc).mpr (.inl ⟨rfl, rfl, ha.keeps hx⟩)
      have hown := put_own hi hc ha hfresh hhas
      refine ⟨c', x, ts, elapsedMs, hhas, hversion,
        List.mem_of_mem_filter (p := (·.id = x.id)) ?_⟩
      rw [hown, hwritten]
      exact List.mem_cons_of_mem _ List.mem_cons_self

/-! ## runs -/

theorem step_accept (h : step env cfg s .accept = some s') :
    s' = { s with conns := s.conns ++ [.new] } := by
  simp only [step] at h
  split at h
  · exact (Option.some.inj h).symm
  · cases h

theorem step_conn (h : step env cfg s (.conn n e) = some s') :
    ∃ c c' effect, s.conns[n]? = some c ∧
      advance env cfg s.shutdown s.isAborting s.runs c e = some (c', effect) ∧
      s' = s.put n c' effect := by
  simp only [step, Option.bind_eq_bind, Option.bind_eq_some_iff] at h
  obtain ⟨c, hc, ⟨c', effect⟩, ha, hs⟩ := h
  exact ⟨c, c', effect, hc, ha, (Option.some.inj hs).symm⟩

/-- a step of the proxy itself leaves all connections as they are -/
theorem step_serve {e : Event F R} (h : step env cfg s e = some s') :
    (s'.conns = s.conns ∧ s'.logs = s.logs ∧ s'.forwarded = s.forwarded ∧ s'.replies = s.replies) ∨
      e = .accept ∨ e = .crash ∨ ∃ n ev, e = .conn n ev := by
  cases e with
  | accept => exact .inr (.inl rfl)
  | crash => exact .inr (.inr (.inl rfl))
  | conn n ev => exact .inr (.inr (.inr ⟨n, ev, rfl⟩))
  | newRun run =>
    obtain rfl := Option.some.inj h
    exact .inl ⟨rfl, rfl, rfl, rfl⟩
  | cancel =>
    obtain rfl := Option.some.inj h
    exact .inl ⟨rfl, rfl, rfl, rfl⟩
  | _ =>
    simp only [step] at h
    split at h
    · obtain rfl := Option.some.inj h
      exact .inl ⟨rfl, rfl, rfl, rfl⟩
    · cases h

theorem step_inv {e : Event F R} (hi : Inv env cfg s) (hfresh : Fresh s e)
    (h : step env cfg s e = some s') : Inv env cfg s' := by
  obtain ⟨hconns, hlogs, hforwarded, hreplies⟩ | rfl | rfl | ⟨n, ev, rfl⟩ := step_serve h
  · refine hi.relabel (hconns ▸ hi.conns) (fun n c x hx => ⟨c, ?_, rfl⟩)
      (fun n c x hx => ⟨c, ?_⟩) hlogs hforwarded hreplies
    · unfold State.Has at hx ⊢
      rwa [hconns] at hx
    · unfold State.Has at hx ⊢
      rwa [hconns]
  · obtain rfl := step_accept h
    have hnew : ∀ {n : ℕ} {c : Conn F R}, (s.conns ++ [Conn.new])[n]? = some c →
        s.conns[n]? = some c ∨ c = .new := by
      intro n c hc
      rw [List.getElem?_append] at hc
      split at hc
      · exact .inl hc
      · exact .inr (List.mem_singleton.mp (List.mem_of_getElem? hc))
    refine hi.relabel ?_ ?_ ?_ rfl rfl rfl
    · intro n c hc
      obtain hc | rfl := hnew hc
      · exact hi.conns n c hc
      · exact ⟨rfl, rfl⟩
    · intro n c x ⟨hc, hx⟩
      obtain hc | rfl := hnew hc
      · exact ⟨c, ⟨hc, hx⟩, rfl⟩
      · cases hx
    · intro n c x ⟨hc, hx⟩
      refine ⟨c, ?_, hx⟩
      show (s.conns ++ [Conn.new])[n]? = some c
      rw [List.getElem?_append_left (List.getElem?_eq_some_iff.mp hc).1]
      exact hc
  · obtain rfl := Option.some.inj h
    have hback : ∀ {n : ℕ} {c' : Conn F R},
        (s.conns.map fun c => { c with phase := .closed })[n]? = some c' →
          ∃ c, s.conns[n]? = some c ∧ { c with phase := .closed } = c' := by
      intro n c' hc'
      rw [List.getElem?_map] at hc'
      exact Option.map_eq_some_iff.mp hc'
    refine hi.relabel ?_ ?_ ?_ rfl rfl rfl
    · intro n c' hc'
      obtain ⟨c, hc, rfl⟩ := hback hc'
      exact connOk_closed (hi.conns n c hc)
    · intro n c' x ⟨hc', hx⟩
      obtain ⟨c, hc, rfl⟩ := hback hc'
      exact ⟨c, ⟨hc, hx⟩, rfl⟩
    · intro n c x ⟨hc, hx⟩
      refine ⟨{ c with phase := .closed }, ?_, hx⟩
      show (s.conns.map fun c => { c with phase := .closed })[n]? = _
      rw [List.getElem?_map, hc]
      rfl
  · obtain ⟨c, c', effect, hc, ha, rfl⟩ := step_conn h
    exact put_inv hi hc (advance_spec (hi.conns n c hc) ha) hfresh

end

end Moagan.Audit.Proxy
