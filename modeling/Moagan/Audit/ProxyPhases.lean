import Moagan.Audit.Proxy

/-!
# How far a request is (`src/audit/proxy.rs`)

* `Phase.sends`, `Phase.replies`   how often a request may have been sent, and answered
* `Phase.isUpstream`   the upstream has the request, and its answer is on its way
* `Moved`              what one step does to these
* `advance_moved`      it holds of every step of `handle_connection`
-/

namespace Moagan.Audit.Proxy

section
variable {Url F R : Type}

/-- an exchange is on its way -/
def Phase.isBusy : Phase F → Bool
  | .requesting => true
  | .recorded => true
  | .sent => true
  | .receiving _ _ => true
  | .answering _ _ => true
  | _ => false

def Phase.sends : Phase F → ℕ
  | .reading => 0
  | .resolving _ => 0
  | .requesting => 0
  | .recorded => 0
  | _ => 1

def Phase.replies : Phase F → ℕ
  | .replying => 1
  | .closed => 1
  | _ => 0

def Phase.isUpstream : Phase F → Bool
  | .sent => true
  | .receiving _ _ => true
  | .answering _ (.response _ _ _ _) => true
  | _ => false

/-- the task is not aborted, and its writes do not fail -/
def ConnEvent.isClean : ConnEvent F → Bool
  | .aborted => false
  | .write .failed => false
  | .write .unsynced => false
  | _ => true

structure Moved (c : Conn F R) (e : ConnEvent F) (c' : Conn F R) (effect : Effect F R) : Prop where
  closes : c'.phase = .closed → c.phase.isBusy = true → e.isClean = false
  sends : effect.forward.toList.length + c.phase.sends ≤ c'.phase.sends
  replies : effect.reply.toList.length + c.phase.replies ≤ c'.phase.replies
  upstream : c'.phase.isUpstream = true → c.phase.isUpstream = true ∨ effect.forward ≠ none
  answers : ∀ version status headers body,
    effect.reply = some (.response version status headers body) → c.phase.isUpstream = true

variable {env : Env Url} {cfg : ProxyConfig R} {c c' : Conn F R} {e : ConnEvent F}
  {effect : Effect F R}

/-- a step that neither sends nor replies -/
theorem Moved.quiet (hcloses : c'.phase = .closed → c.phase.isBusy = true → e.isClean = false)
    (hsends : c.phase.sends ≤ c'.phase.sends) (hreplies : c.phase.replies ≤ c'.phase.replies)
    (hupstream : c'.phase.isUpstream = true → c.phase.isUpstream = true) :
    Moved c e c' .none where
  closes := hcloses
  sends := by simpa [Effect.none] using hsends
  replies := by simpa [Effect.none] using hreplies
  upstream := fun h => .inl (hupstream h)
  answers := fun _ _ _ _ h => nomatch h

/-- an error behind which nothing comes -/
theorem Moved.refuse {status : ℕ} {message : String} (hreplies : c.phase.replies = 0) :
    Moved c e { c with phase := .replying } (.ofReply (.error status message)) where
  closes := fun h => nomatch h
  sends := by
    show 0 + c.phase.sends ≤ 1
    cases c.phase <;> simp [Phase.sends]
  replies := by
    show 1 + c.phase.replies ≤ 1
    omega
  upstream := fun h => nomatch h
  answers := fun _ _ _ _ h => nomatch h

theorem phase_sends_le (phase : Phase F) : phase.sends ≤ 1 := by
  cases phase <;> simp [Phase.sends]

theorem phase_replies_le (phase : Phase F) : phase.replies ≤ 1 := by
  cases phase <;> simp [Phase.replies]

/-- where the connection ends -/
theorem Moved.close (h : c.phase.isBusy = true → e.isClean = false) :
    Moved c e { c with phase := .closed } .none :=
  .quiet (fun _ => h) (phase_sends_le _) (phase_replies_le _) fun h => nomatch h

theorem Moved.write {path : LogPath R} {record : AuditRecord F} {next : Phase F}
    {reply : Option Reply} {result : WriteResult} (hnext : next ≠ .closed)
    (hsends : c.phase.sends ≤ next.sends)
    (hreplies : reply.toList.length + c.phase.replies ≤ next.replies)
    (hupstream : next.isUpstream = true → c.phase.isUpstream = true)
    (hanswers : ∀ version status headers body,
      reply = some (.response version status headers body) → c.phase.isUpstream = true) :
    Moved c (.write result) (c.write path record next reply result).1
      (c.write path record next reply result).2 := by
  cases result with
  | written =>
    exact ⟨fun h => absurd h hnext, (Nat.zero_add _).trans_le hsends, hreplies,
      fun h => .inl (hupstream h), hanswers⟩
  | failed => exact .close fun _ => rfl
  | unsynced =>
    exact ⟨fun _ _ => rfl, (Nat.zero_add _).trans_le (phase_sends_le _),
      (Nat.zero_add _).trans_le (phase_replies_le _), (fun h => nomatch h),
      fun _ _ _ _ h => nomatch h⟩

/-- an answer waits for the log -/
theorem Moved.answer {terminal : AuditRecord F} {reply : Reply} (hreplies : c.phase.replies = 0)
    (hupstream : ∀ version status headers body,
      reply = .response version status headers body → c.phase.isUpstream = true) :
    Moved c e (c.answer terminal reply) .none := by
  refine .quiet (fun h => nomatch h) (phase_sends_le _) (hreplies ▸ Nat.zero_le _) fun h => ?_
  cases reply with
  | error status message => cases h
  | response version status headers body => exact hupstream version status headers body rfl

theorem advance_moved [LinearOrder R] {shutdown aborting : Bool} {runs : List R}
    (h : advance env cfg shutdown aborting runs c e = some (c', effect)) :
    Moved c e c' effect := by
  have key : ∀ {d : Conn F R} {effect' : Effect F R}, some (d, effect') = some (c', effect) →
      Moved c e d effect' → Moved c e c' effect := by
    intro d effect' heq hd
    obtain ⟨rfl, rfl⟩ := Prod.mk.inj (Option.some.inj heq)
    exact hd
  obtain ⟨phase, exchange, written⟩ := c
  cases e with
  | received reader =>
    cases phase with
    | reading =>
      simp only [advance] at h
      split at h
      · exact key h (.refuse rfl)
      · exact key h (.quiet (fun h => nomatch h) (Nat.le_refl _) (Nat.le_refl _) fun h => h)
    | _ => cases h
  | timedOut =>
    cases phase with
    | reading => exact key h (.refuse rfl)
    | _ => cases h
  | hungUp =>
    cases phase with
    | reading =>
      simp only [advance] at h
      split at h
      · exact key h (.close fun h => nomatch h)
      · cases h
    | _ => cases h
  | resolve readable expired id ts =>
    cases phase with
    | resolving parsed =>
      simp only [advance] at h
      split at h
      · split at h
        · split at h
          · exact key h (.refuse rfl)
          · exact key h (.quiet (fun h => nomatch h) (Nat.le_refl _) (Nat.le_refl _) fun h => h)
        · split at h
          · exact key h (.close fun h => nomatch h)
          · exact key h (.quiet (fun h => nomatch h) (Nat.le_refl _) (Nat.le_refl _) fun h => h)
      · exact key h (.close fun h => nomatch h)
    | _ => cases h
  | write result =>
    cases exchange with
    | none => cases phase <;> cases h
    | some x =>
      cases phase with
      | requesting =>
        exact key h (.write (fun h => nomatch h) (Nat.le_refl _) (Nat.le_refl _)
          (fun h => nomatch h) fun _ _ _ _ h => nomatch h)
      | answering terminal reply =>
        refine key h (.write (fun h => nomatch h) (Nat.le_refl _) (Nat.le_refl _)
          (fun h => nomatch h) fun version status headers body heq => ?_)
        obtain rfl := Option.some.inj heq
        rfl
      | _ => cases h
  | send =>
    cases exchange with
    | none => cases phase <;> cases h
    | some x =>
      cases phase with
      | recorded =>
        exact key h ⟨(fun h => nomatch h), Nat.le_refl _, Nat.le_refl _,
          (fun _ => .inr fun h => nomatch h), fun _ _ _ _ h => nomatch h⟩
      | _ => cases h
  | refused ts elapsedMs =>
    cases exchange with
    | none => cases phase <;> cases h
    | some x =>
      cases phase with
      | recorded =>
        simp only [advance] at h
        split at h
        · exact key h (.answer rfl fun _ _ _ _ h => nomatch h)
        · cases h
      | sent =>
        simp only [advance] at h
        split at h
        · exact key h (.answer rfl fun _ _ _ _ h => nomatch h)
        · cases h
      | _ => cases h
  | sendFailed error ts elapsedMs =>
    cases exchange with
    | none => cases phase <;> cases h
    | some x =>
      cases phase with
      | sent => exact key h (.answer rfl fun _ _ _ _ h => nomatch h)
      | _ => cases h
  | head status headers =>
    cases phase with
    | sent =>
      exact key h (.quiet (fun h => nomatch h) (Nat.le_refl _) (Nat.le_refl _) fun _ => rfl)
    | _ => cases h
  | body chunks failure ts elapsedMs =>
    cases exchange with
    | none => cases phase <;> cases h
    | some x =>
      cases phase with
      | receiving status headers =>
        simp only [advance] at h
        split at h
        · exact key h (.answer rfl fun _ _ _ _ h => nomatch h)
        · exact key h (.answer rfl fun _ _ _ _ _ => rfl)
      | _ => cases h
  | replied =>
    cases phase with
    | replying => exact key h (.close fun h => nomatch h)
    | _ => cases h
  | aborted =>
    simp only [advance] at h
    split at h
    · exact key h (.close fun _ => rfl)
    · cases h

end

end Moagan.Audit.Proxy
