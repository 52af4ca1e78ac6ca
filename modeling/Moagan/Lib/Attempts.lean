import Mathlib.Data.Nat.Notation

/-!
# Loops that try again

The body of a loop either is done with a result or goes round again in a new state.  The loop runs
it on fuel.

* `loop_succ`    one turn
* `loop_mono`    more fuel does not change a result
* `loop_spec`    the rule for total correctness: an invariant that every turn keeps, a rank that
                 every turn lowers, and what holds of the result when the body is done
* `iterate`      a loop in which every turn lowers a rank, on the fuel that it needs
* `iterate_spec`, `iterate_sim`   the rules for an invariant, and for two runs side by side
-/

namespace Attempts

inductive Next (σ ρ : Type*) where
  | done (r : ρ)
  | again (s : σ)

section
variable {σ ρ : Type*} (body : σ → Next σ ρ)

def loop : ℕ → σ → Option ρ
  | 0, _ => none
  | n + 1, s =>
    match body s with
    | .done r => some r
    | .again s' => loop n s'

theorem loop_done {s : σ} {r : ρ} (h : body s = .done r) (n : ℕ) :
    loop body (n + 1) s = some r := by
  rw [loop, h]

theorem loop_again {s s' : σ} (h : body s = .again s') (n : ℕ) :
    loop body (n + 1) s = loop body n s' := by
  rw [loop, h]

theorem loop_mono {n m : ℕ} (h : n ≤ m) {s : σ} {r : ρ} (hr : loop body n s = some r) :
    loop body m s = some r := by
  induction n generalizing m s with
  | zero => cases hr
  | succ n ih =>
    obtain ⟨m, rfl⟩ : ∃ k, m = k + 1 := ⟨m - 1, by omega⟩
    cases hb : body s with
    | done q =>
      rw [loop_done body hb] at hr ⊢
      exact hr
    | again s' =>
      rw [loop_again body hb] at hr ⊢
      exact ih (Nat.le_of_succ_le_succ h) hr

variable {body}

theorem loop_spec {I : σ → Prop} {Q : ρ → Prop} {w : σ → ℕ}
    (hdone : ∀ s r, I s → body s = .done r → Q r)
    (hagain : ∀ s s', I s → body s = .again s' → I s' ∧ w s' < w s)
    {s : σ} (h : I s) {n : ℕ} (hn : w s < n) : ∃ r, loop body n s = some r ∧ Q r := by
  induction n generalizing s with
  | zero => exact absurd hn (Nat.not_lt_zero _)
  | succ n ih =>
    cases hb : body s with
    | done r => exact ⟨r, loop_done body hb n, hdone s r h hb⟩
    | again s' =>
      obtain ⟨h', hlt⟩ := hagain s s' h hb
      rw [loop_again body hb]
      exact ih h' (by omega)

end

/-! ## loops that come to an end -/

/-- both are done, or both go round again -/
inductive Next.Rel {σ ρ : Type*} (R : σ → σ → Prop) (Q : ρ → ρ → Prop) :
    Next σ ρ → Next σ ρ → Prop
  | done {r q : ρ} (h : Q r q) : Next.Rel R Q (.done r) (.done q)
  | again {s t : σ} (h : R s t) : Next.Rel R Q (.again s) (.again t)

section
variable {σ ρ : Type*} (body : σ → Next σ ρ) (w : σ → ℕ)
  (h : ∀ s s', body s = .again s' → w s' < w s)

include h in
theorem loop_isSome (s : σ) : (loop body (w s + 1) s).isSome = true := by
  obtain ⟨r, hr, -⟩ := loop_spec (I := fun _ => True) (Q := fun _ => True) (fun _ _ _ _ => trivial)
    (fun s s' _ hb => ⟨trivial, h s s' hb⟩) (s := s) trivial (Nat.lt_succ_self (w s))
  rw [hr]
  rfl

def iterate (s : σ) : ρ := (loop body (w s + 1) s).get (loop_isSome body w h s)

theorem loop_iterate (s : σ) : loop body (w s + 1) s = some (iterate body w h s) :=
  (Option.some_get _).symm

theorem iterate_done {s : σ} {r : ρ} (hb : body s = .done r) : iterate body w h s = r := by
  have hr := loop_iterate body w h s
  rw [loop_done body hb] at hr
  exact (Option.some.inj hr).symm

theorem iterate_again {s s' : σ} (hb : body s = .again s') :
    iterate body w h s = iterate body w h s' := by
  have hr := loop_iterate body w h s
  rw [loop_again body hb] at hr
  rw [loop_mono body (h s s' hb) (loop_iterate body w h s')] at hr
  exact (Option.some.inj hr).symm

variable {body w h}

/-- **The rule for an invariant.** -/
theorem iterate_spec {I : σ → Prop} {Q : ρ → Prop}
    (hdone : ∀ s r, I s → body s = .done r → Q r)
    (hagain : ∀ s s', I s → body s = .again s' → I s') {s : σ} (hs : I s) :
    Q (iterate body w h s) := by
  obtain ⟨r, hr, hq⟩ := loop_spec hdone (fun s s' hi hb => ⟨hagain s s' hi hb, h s s' hb⟩) hs
    (Nat.lt_succ_self (w s))
  rw [loop_iterate body w h] at hr
  rwa [Option.some.inj hr]

/-- **The rule for two runs side by side.** -/
theorem iterate_sim {R : σ → σ → Prop} {Q : ρ → ρ → Prop}
    (hsim : ∀ s t, R s t → Next.Rel R Q (body s) (body t)) {s t : σ} (hst : R s t) :
    Q (iterate body w h s) (iterate body w h t) := by
  obtain ⟨n, hn⟩ : ∃ n, w s ≤ n := ⟨w s, Nat.le_refl _⟩
  induction n using Nat.strongRecOn generalizing s t with
  | ind n ih =>
    have hrel := hsim s t hst
    cases hb : body s with
    | done r =>
      rw [hb] at hrel
      generalize hc : body t = x at hrel
      cases hrel with
      | done hq =>
        rw [iterate_done body w h hb, iterate_done body w h hc]
        exact hq
    | again s' =>
      rw [hb] at hrel
      generalize hc : body t = x at hrel
      cases hrel with
      | again hr =>
        rw [iterate_again body w h hb, iterate_again body w h hc]
        exact ih (w s') (by have := h s s' hb; omega) hr (Nat.le_refl _)

end

end Attempts
