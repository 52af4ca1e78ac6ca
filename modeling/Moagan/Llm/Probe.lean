import Mathlib.Algebra.Group.Nat.Defs
import Mathlib.Data.List.Basic

/-!
# The probe of the token cap (`src/llm/probe.rs`)

* `Transport`        what answers the probes; an answer may depend on all that was sent before
* `phase0ShortCircuit`, `phase1`, `phase2`   the cap of an error body; powers of two; batches
* `detectMaxTokens`  the whole detection, with the log of its probes
* `Sent`             how a log grows by so many probes
* `detect_sound`     a bounded number of probes, and no answer but an accepted one or a clamp

A fan-out is sent in the order of its points, and a task that panics is a probe without an answer;
an answer that depends on the log stands for every order.
-/

namespace Moagan.Probe

inductive ProbeOutcome where
  | accepted
  | rejected
  | indeterminate
deriving DecidableEq, Repr

structure ProbeResult (β : Type) where
  outcome : ProbeOutcome
  body : β

/-- the probes that were sent, the last one first -/
abbrev Log := List (ℕ × ProbeOutcome)

structure Transport (β : Type) where
  probeSend : Log → ℕ → ProbeOutcome
  probeSendWithBody : Log → ℕ → ProbeResult β

def maxProbeShift : ℕ := 30
def minAutoprobeFloor : ℕ := 1024
def u32Max : ℕ := 4294967295

section
variable {β : Type} (captured : β → Option ℕ) (t : Transport β)

/-- `captured` is the number that the first of the patterns to match captures, in the decoded
`error.message` of the body or in the body -/
def parseCapFromErrorBody (body : β) : Option ℕ :=
  match captured body with
  | none => none
  | some raw => if u32Max ≤ raw then none else if raw < minAutoprobeFloor then none else some raw

def send (log : Log) (n : ℕ) : ProbeOutcome × Log :=
  (t.probeSend log n, (n, t.probeSend log n) :: log)

def sendWithBody (log : Log) (n : ℕ) : ProbeResult β × Log :=
  (t.probeSendWithBody log n, (n, (t.probeSendWithBody log n).outcome) :: log)

def retryOnceOnIndeterminate (log : Log) (n : ℕ) : ProbeOutcome × Log :=
  match send t log n with
  | (.indeterminate, log) => send t log n
  | (other, log) => (other, log)

def parallelProbe (log : Log) : List ℕ → List ProbeOutcome × Log
  | [] => ([], log)
  | pt :: points =>
    let (outcome, log) := send t log pt
    let (outcomes, log) := parallelProbe log points
    (outcome :: outcomes, log)

def phase0ShortCircuit (log : Log) : Option ℕ × Log :=
  let (initial, log) := sendWithBody t log u32Max
  match parseCapFromErrorBody captured initial.body with
  | none => (none, log)
  | some n =>
    let (outcomes, log) := parallelProbe t log [n, n + 1]
    match outcomes with
    | [.accepted, .indeterminate] => (some n, (sendWithBody t log (n + 1)).2)
    | .accepted :: _ => (some n, log)
    | _ => (none, log)

/-- the last accepted power and the first bound above it -/
def phase1 (ceiling : ℕ) : List ℕ → ℕ → Log → (ℕ × ℕ) × Log
  | [], lo, log => ((lo, ceiling), log)
  | k :: ks, lo, log =>
    if ceiling < 2 ^ k then ((lo, ceiling), log)
    else
      match retryOnceOnIndeterminate t log (2 ^ k) with
      | (.accepted, log) => phase1 ceiling ks (2 ^ k) log
      -- nothing was accepted so far: the valid range may begin above
      | (_, log) => if 0 < lo then ((lo, 2 ^ k), log) else phase1 ceiling ks lo log

/-- `lo_strict`, `hi_strict` and `phase2_accepted` -/
structure Bounds where
  lo : ℕ
  hi : ℕ
  accepted : Bool
deriving DecidableEq, Repr

def batch (b : Bounds) : List ℕ :=
  if b.hi - b.lo ≤ 20 then List.range' b.lo (b.hi + 1 - b.lo)
  else List.range' (b.lo + (b.hi - b.lo) / 20) 20 ((b.hi - b.lo) / 20)

/-- the outcomes of a batch, up to the first point that is not accepted -/
def commit (b : Bounds) (log : Log) : List (ℕ × ProbeOutcome) → Bounds × Log
  | [] => (b, log)
  | (pt, outcome) :: rest =>
    let (committed, log) :=
      if outcome = .indeterminate then retryOnceOnIndeterminate t log pt else (outcome, log)
    match committed with
    | .accepted => commit { b with lo := pt, accepted := true } log rest
    | _ => ({ b with hi := pt - 1 }, log)

/-- one round of the second phase -/
def tighten (b : Bounds) (log : Log) : Bounds × Log :=
  let (outcomes, log) := parallelProbe t log (batch b)
  commit t b log ((batch b).zip outcomes)

def phase2 : ℕ → Bounds → Log → Bounds × Log
  | 0, b, log => (b, log)
  | rounds + 1, b, log =>
    if b.hi ≤ b.lo ∨ b.hi = 0 then (b, log)
    else
      let (b', log) := tighten t b log
      if b'.lo = b.lo ∧ b'.hi = b.hi then (b', log) else phase2 rounds b' log

def clamp (n floor ceiling : ℕ) : ℕ := min (max n floor) ceiling

/-- the value that both phases discover -/
def discover (ceiling : ℕ) (log : Log) : ℕ × Log :=
  let ((lo, hi), log) := phase1 t ceiling (List.range' 1 maxProbeShift) 0 log
  let (b, log) := phase2 t 32 ⟨lo + 1, hi - 1, false⟩ log
  (if b.accepted then b.lo else lo, log)

structure Detection where
  /-- the value, or the message of the error -/
  result : Except String ℕ
  /-- what `on_phase_0_cap` is called with -/
  phase0Cap : Option ℕ
  log : Log

def failedMessage (discovered : ℕ) : String :=
  "auto-probe failed to discover a usable max_tokens (got " ++ toString discovered ++
    "); provider likely rejected every probe"

def detectMaxTokens (floor ceiling : ℕ) : Detection :=
  match phase0ShortCircuit captured t [] with
  | (some cap, log) => ⟨.ok (clamp cap floor ceiling), some cap, log⟩
  | (none, log) =>
    let (discovered, log) := discover t ceiling log
    if discovered < minAutoprobeFloor then ⟨.error (failedMessage discovered), none, log⟩
    else ⟨.ok (clamp discovered floor ceiling), none, log⟩

/-! ## logs -/

/-- the log `log'` is `log` and `n` answered probes more -/
inductive Sent (log : Log) : ℕ → Log → Prop
  | refl : Sent log 0 log
  | plain {n : ℕ} {log' : Log} (m : ℕ) : Sent log n log' →
      Sent log (n + 1) ((m, t.probeSend log' m) :: log')
  | body {n : ℕ} {log' : Log} (m : ℕ) : Sent log n log' →
      Sent log (n + 1) ((m, (t.probeSendWithBody log' m).outcome) :: log')

variable {captured t}

theorem Sent.trans {m n : ℕ} {a b c : Log} (h₁ : Sent t a m b) (h₂ : Sent t b n c) :
    Sent t a (m + n) c := by
  induction h₂ with
  | refl => exact h₁
  | plain k _ ih => exact .plain k ih
  | body k _ ih => exact .body k ih

theorem Sent.length {n : ℕ} {log log' : Log} (h : Sent t log n log') :
    log'.length = log.length + n := by
  induction h with
  | refl => rfl
  | plain k _ ih | body k _ ih =>
    rw [List.length_cons, ih]
    omega

theorem Sent.mem {n : ℕ} {log log' : Log} (h : Sent t log n log') {e : ℕ × ProbeOutcome}
    (he : e ∈ log) : e ∈ log' := by
  induction h with
  | refl => exact he
  | plain k _ ih | body k _ ih => exact List.mem_cons_of_mem _ ih

/-- the log grows by at most so many probes -/
def Within (t : Transport β) (n : ℕ) (log log' : Log) : Prop := ∃ m ≤ n, Sent t log m log'

theorem Within.refl (n : ℕ) (log : Log) : Within t n log log := ⟨0, Nat.zero_le n, .refl⟩

theorem Within.trans {m n : ℕ} {a b c : Log} (h₁ : Within t m a b) (h₂ : Within t n b c) :
    Within t (m + n) a c := by
  obtain ⟨k, hk, h₁⟩ := h₁
  obtain ⟨l, hl, h₂⟩ := h₂
  exact ⟨k + l, Nat.add_le_add hk hl, h₁.trans h₂⟩

theorem Within.mono {m n : ℕ} (hle : m ≤ n) {a b : Log} (h : Within t m a b) : Within t n a b := by
  obtain ⟨k, hk, h⟩ := h
  exact ⟨k, Nat.le_trans hk hle, h⟩

theorem Within.mem {n : ℕ} {log log' : Log} (h : Within t n log log') {e : ℕ × ProbeOutcome}
    (he : e ∈ log) : e ∈ log' := by
  obtain ⟨m, -, h⟩ := h
  exact h.mem he

/-! ## the probes of each part -/

theorem send_within (log : Log) (n : ℕ) : Within t 1 log (send t log n).2 :=
  ⟨1, Nat.le_refl 1, .plain n .refl⟩

theorem sendWithBody_within (log : Log) (n : ℕ) : Within t 1 log (sendWithBody t log n).2 :=
  ⟨1, Nat.le_refl 1, .body n .refl⟩

/-- the outcome of a probe with a retry is in the log -/
theorem retry_spec (log : Log) (n : ℕ) :
    Within t 2 log (retryOnceOnIndeterminate t log n).2 ∧
      (n, (retryOnceOnIndeterminate t log n).1) ∈ (retryOnceOnIndeterminate t log n).2 := by
  unfold retryOnceOnIndeterminate
  have hfirst : Within t 1 log (send t log n).2 := send_within log n
  split
  · rename_i log' h
    rw [h] at hfirst
    exact ⟨hfirst.trans (send_within log' n), List.mem_cons_self⟩
  · rename_i other log' _ h
    rw [h] at hfirst
    refine ⟨hfirst.mono (by omega), ?_⟩
    have he : (n, (send t log n).1) ∈ (send t log n).2 := List.mem_cons_self
    rw [h] at he
    exact he

/-- a fan-out sends every point once, and its outcomes are in the log -/
theorem parallel_spec (points : List ℕ) : ∀ log : Log,
    Within t points.length log (parallelProbe t log points).2 ∧
      (parallelProbe t log points).1.length = points.length ∧
      ∀ e ∈ points.zip (parallelProbe t log points).1, e ∈ (parallelProbe t log points).2 := by
  induction points with
  | nil =>
    intro log
    exact ⟨.refl 0 log, rfl, nofun⟩
  | cons pt points ih =>
    intro log
    obtain ⟨hw, hlen, hmem⟩ := ih (send t log pt).2
    refine ⟨?_, congrArg (· + 1) hlen, ?_⟩
    · rw [List.length_cons, Nat.add_comm]
      exact (send_within log pt).trans hw
    · intro e he
      obtain rfl | he := List.mem_cons.mp he
      · exact hw.mem List.mem_cons_self
      · exact hmem e he

/-- **Phase 0 returns an accepted candidate, after four probes at most.** -/
theorem phase0_spec (captured : β → Option ℕ) (log : Log) : Within t 4 log (phase0ShortCircuit captured t log).2 ∧
    ∀ n ∈ (phase0ShortCircuit captured t log).1,
      (n, .accepted) ∈ (phase0ShortCircuit captured t log).2 := by
  unfold phase0ShortCircuit
  have hfirst := sendWithBody_within (t := t) log u32Max
  cases hp : parseCapFromErrorBody captured (sendWithBody t log u32Max).1.body with
  | none =>
    simp only [hp]
    exact ⟨hfirst.mono (by omega), nofun⟩
  | some n =>
    simp only [hp]
    obtain ⟨hw, -, hmem⟩ := parallel_spec (t := t) [n, n + 1] (sendWithBody t log u32Max).2
    have hthree : Within t 3 log (parallelProbe t (sendWithBody t log u32Max).2 [n, n + 1]).2 :=
      hfirst.trans hw
    generalize parallelProbe t (sendWithBody t log u32Max).2 [n, n + 1] = r at hmem hthree
    obtain ⟨outcomes, log'⟩ := r
    dsimp only at hmem hthree ⊢
    split
    · have hlast := sendWithBody_within (t := t) log' (n + 1)
      refine ⟨hthree.trans hlast, fun m hm => ?_⟩
      obtain rfl := Option.some.inj hm
      exact hlast.mem (hmem _ List.mem_cons_self)
    · refine ⟨hthree.mono (by omega), fun m hm => ?_⟩
      obtain rfl := Option.some.inj hm
      exact hmem _ List.mem_cons_self
    · exact ⟨hthree.mono (by omega), nofun⟩

/-- what a phase has discovered: nothing, or a value that a probe accepted -/
def Backed (n : ℕ) (log : Log) : Prop := n = 0 ∨ (n, .accepted) ∈ log

theorem Backed.within {n m : ℕ} {log log' : Log} (h : Backed n log) (hw : Within t m log log') :
    Backed n log' := by
  obtain h | h := h
  · exact Or.inl h
  · exact Or.inr (hw.mem h)

/-- **Phase 1 ends with an accepted value or none, after two probes for each power at most.** -/
theorem phase1_spec (ceiling : ℕ) (ks : List ℕ) : ∀ (lo : ℕ) (log : Log), Backed lo log →
    Within t (2 * ks.length) log (phase1 t ceiling ks lo log).2 ∧
      Backed (phase1 t ceiling ks lo log).1.1 (phase1 t ceiling ks lo log).2 := by
  induction ks with
  | nil =>
    intro lo log h
    exact ⟨.refl _ log, h⟩
  | cons k ks ih =>
    intro lo log h
    rw [phase1, List.length_cons]
    split
    · exact ⟨.refl _ log, h⟩
    · obtain ⟨hw, hmem⟩ := retry_spec (t := t) log (2 ^ k)
      have hsplit : 2 * (ks.length + 1) = 2 + 2 * ks.length := by omega
      split
      · rename_i log' hr
        rw [hr] at hw hmem
        obtain ⟨hrest, hb⟩ := ih (2 ^ k) log' (Or.inr hmem)
        exact ⟨hsplit ▸ hw.trans hrest, hb⟩
      · rename_i other log' _ hr
        rw [hr] at hw
        split
        · exact ⟨hw.mono (by omega), h.within hw⟩
        · obtain ⟨hrest, hb⟩ := ih lo log' (h.within hw)
          exact ⟨hsplit ▸ hw.trans hrest, hb⟩

/-- an accepted lower bound is in the log -/
def Bounds.Backed (b : Bounds) (log : Log) : Prop := b.accepted = true → (b.lo, .accepted) ∈ log

theorem Bounds.Backed.within {b : Bounds} {n : ℕ} {log log' : Log} (h : b.Backed log)
    (hw : Within t n log log') : b.Backed log' := fun ha => hw.mem (h ha)

theorem commit_spec (ps : List (ℕ × ProbeOutcome)) : ∀ (b : Bounds) (log : Log), b.Backed log →
    (∀ e ∈ ps, e ∈ log) →
    Within t (2 * ps.length) log (commit t b log ps).2 ∧
      (commit t b log ps).1.Backed (commit t b log ps).2 := by
  induction ps with
  | nil =>
    intro b log h _
    exact ⟨.refl _ log, h⟩
  | cons p ps ih =>
    intro b log h hps
    obtain ⟨pt, outcome⟩ := p
    -- the point is committed with an outcome that is in the log
    have hcommitted : ∃ committed log', (if outcome = .indeterminate then
          retryOnceOnIndeterminate t log pt else (outcome, log)) = (committed, log') ∧
        Within t 2 log log' ∧ (pt, committed) ∈ log' := by
      split
      · obtain ⟨hw, hmem⟩ := retry_spec (t := t) log pt
        exact ⟨_, _, rfl, hw, hmem⟩
      · exact ⟨_, _, rfl, .refl 2 log, hps _ List.mem_cons_self⟩
    obtain ⟨committed, log', he, hw, hmem⟩ := hcommitted
    have hsplit : 2 * (ps.length + 1) = 2 + 2 * ps.length := by omega
    rw [commit, he, List.length_cons]
    dsimp only
    split
    · obtain ⟨hrest, hb⟩ := ih { b with lo := pt, accepted := true } log' (fun _ => hmem)
        fun e he => hw.mem (hps e (List.mem_cons_of_mem _ he))
      exact ⟨hsplit ▸ hw.trans hrest, hb⟩
    · exact ⟨hw.mono (by omega), fun ha => hw.mem (h ha)⟩

theorem batch_length (b : Bounds) : (batch b).length ≤ 21 := by
  unfold batch
  split
  · rw [List.length_range']
    omega
  · rw [List.length_range']
    omega

theorem tighten_spec (b : Bounds) (log : Log) (h : b.Backed log) :
    Within t 63 log (tighten t b log).2 ∧ (tighten t b log).1.Backed (tighten t b log).2 := by
  obtain ⟨hw, hlen, hmem⟩ := parallel_spec (t := t) (batch b) log
  obtain ⟨hrest, hb⟩ := commit_spec (t := t) _ b _ (h.within hw) hmem
  have hbatch := batch_length b
  refine ⟨(hw.trans hrest).mono ?_, hb⟩
  rw [List.length_zip, hlen]
  omega

/-- **Phase 2 keeps its lower bound accepted, after 63 probes for each round at most.** -/
theorem phase2_spec (rounds : ℕ) : ∀ (b : Bounds) (log : Log), b.Backed log →
    Within t (63 * rounds) log (phase2 t rounds b log).2 ∧
      (phase2 t rounds b log).1.Backed (phase2 t rounds b log).2 := by
  induction rounds with
  | zero =>
    intro b log h
    exact ⟨.refl _ log, h⟩
  | succ rounds ih =>
    intro b log h
    rw [phase2]
    split
    · exact ⟨.refl _ log, h⟩
    · obtain ⟨hw, hb⟩ := tighten_spec (t := t) b log h
      dsimp only
      split
      · exact ⟨hw.mono (by omega), hb⟩
      · obtain ⟨hrest, hb'⟩ := ih _ _ hb
        have hsplit : 63 * (rounds + 1) = 63 + 63 * rounds := by omega
        exact ⟨hsplit ▸ hw.trans hrest, hb'⟩

/-- **What both phases discover was accepted by one of their probes, or it is nothing.** -/
theorem discover_spec (ceiling : ℕ) (log : Log) :
    Within t 2076 log (discover t ceiling log).2 ∧
      Backed (discover t ceiling log).1 (discover t ceiling log).2 := by
  obtain ⟨hw₁, hb₁⟩ := phase1_spec (t := t) ceiling (List.range' 1 maxProbeShift) 0 log (Or.inl rfl)
  generalize hr : phase1 t ceiling (List.range' 1 maxProbeShift) 0 log = r at hw₁ hb₁
  obtain ⟨⟨lo, hi⟩, log₁⟩ := r
  obtain ⟨hw₂, hb₂⟩ := phase2_spec (t := t) 32 ⟨lo + 1, hi - 1, false⟩ log₁ nofun
  unfold discover
  rw [hr]
  refine ⟨hw₁.trans hw₂, ?_⟩
  dsimp only
  split
  · rename_i ha
    exact Or.inr (hb₂ ha)
  · exact hb₁.within hw₂

theorem clamp_cases (n floor ceiling : ℕ) :
    clamp n floor ceiling = n ∨ clamp n floor ceiling = floor ∨ clamp n floor ceiling = ceiling := by
  unfold clamp
  omega

/-- **Cap detection is sound on any transport.**  Whatever it answers, detection stops after 2080
probes at most, and the value it returns was accepted by one of these probes, or the clamp put the
floor or the ceiling in its place. -/
theorem detect_sound (captured : β → Option ℕ) (t : Transport β) (floor ceiling : ℕ) :
    (detectMaxTokens captured t floor ceiling).log.length ≤ 2080 ∧
    ∀ v, (detectMaxTokens captured t floor ceiling).result = .ok v →
      (v, .accepted) ∈ (detectMaxTokens captured t floor ceiling).log ∨ v = floor ∨ v = ceiling := by
  -- a value that is backed by the log, once it is clamped
  have hclamp : ∀ {n v : ℕ} {log : Log}, (n, ProbeOutcome.accepted) ∈ log →
      (Except.ok (clamp n floor ceiling) : Except String ℕ) = .ok v →
      (v, ProbeOutcome.accepted) ∈ log ∨ v = floor ∨ v = ceiling := by
    intro n v log hmem hv
    obtain rfl := Except.ok.inj hv
    obtain h | h | h := clamp_cases n floor ceiling
    · exact Or.inl (h.symm ▸ hmem)
    · exact Or.inr (Or.inl h)
    · exact Or.inr (Or.inr h)
  obtain ⟨⟨k₀, hk₀, hs₀⟩, hm₀⟩ := phase0_spec captured (t := t) []
  have hlen₀ := hs₀.length
  unfold detectMaxTokens
  split
  · rename_i cap log hr
    rw [hr] at hm₀ hlen₀
    refine ⟨?_, fun v hv => hclamp (hm₀ cap rfl) hv⟩
    show log.length ≤ 2080
    rw [hlen₀, List.length_nil]
    omega
  · rename_i log hr
    rw [hr] at hlen₀
    obtain ⟨⟨k₁, hk₁, hs₁⟩, hb⟩ := discover_spec (t := t) ceiling log
    have hlen₁ := hs₁.length
    have hlen : (discover t ceiling log).2.length ≤ 2080 := by
      rw [hlen₁, hlen₀, List.length_nil]
      omega
    dsimp only
    split
    · exact ⟨hlen, fun v hv => by cases hv⟩
    · rename_i hfloor
      refine ⟨hlen, fun v hv => hclamp (hb.resolve_left fun h0 => ?_) hv⟩
      rw [h0] at hfloor
      exact hfloor (by decide)

end

/-- a provider that accepts up to 1500 tokens, and leaves every fourth probe without an answer -/
def flaky : Transport Unit where
  probeSend log n :=
    if log.length % 4 = 0 then .indeterminate else if n ≤ 1500 then .accepted else .rejected
  probeSendWithBody _ _ := ⟨.indeterminate, ()⟩

theorem detect_sound_flaky :
    (detectMaxTokens (fun _ => none) flaky 1024 2048).log.length ≤ 2080 ∧
      ((1500, ProbeOutcome.accepted) ∈ (detectMaxTokens (fun _ => none) flaky 1024 2048).log ∨
        1500 = 1024 ∨ 1500 = 2048) :=
  ⟨(detect_sound _ flaky 1024 2048).1, (detect_sound _ flaky 1024 2048).2 1500 rfl⟩

end Moagan.Probe
