import Moagan.Redact.Patterns

/-!
# Applying a redaction policy to a text

* `RedactPolicy`   the surfaces that are redacted and the patterns that are enabled
* `apply`          the active patterns replace their matches, one after the other
-/

namespace Moagan.Redact

structure RedactPolicy where
  telemetry : Bool
  storage : Bool
  «export» : Bool
  prompts : Bool
  /-- the ids of the patterns that are enabled, all of them with `none` -/
  enabledPatterns : Option (List String)

inductive Surface where
  | telemetry
  | storage
  | «export»
  | prompts
deriving DecidableEq

def RedactPolicy.default : RedactPolicy where
  telemetry := true
  storage := true
  «export» := true
  prompts := false
  enabledPatterns := none

def RedactPolicy.allowAll : RedactPolicy where
  telemetry := false
  storage := false
  «export» := false
  prompts := false
  enabledPatterns := none

def RedactPolicy.isEnabled (policy : RedactPolicy) : Surface → Bool
  | .telemetry => policy.telemetry
  | .storage => policy.storage
  | .export => policy.export
  | .prompts => policy.prompts

def RedactPolicy.withPatterns (policy : RedactPolicy) (ids : List String) : RedactPolicy :=
  { policy with enabledPatterns := some ids }

def RedactPolicy.activePatterns (U : Unicode) (policy : RedactPolicy) : List Pattern :=
  match policy.enabledPatterns with
  | none => PATTERNS U
  | some enabled => (PATTERNS U).filter fun p => enabled.contains p.id

def Pattern.replaceAll (p : Pattern) (text : List Char) : List Char :=
  p.re.replaceAll p.replacement text

def replaceEach (active : List Pattern) (text : List Char) : List Char :=
  active.foldl (fun target p => p.replaceAll target) text

/-- The source returns a `Result`, which is always `Ok`. -/
def apply (U : Unicode) (policy : RedactPolicy) (surface : Surface) (text : List Char) : List Char :=
  if !policy.isEnabled surface || text.isEmpty then text
  else replaceEach (policy.activePatterns U) text

theorem activePatterns_sublist (U : Unicode) (policy : RedactPolicy) :
    (policy.activePatterns U).Sublist (PATTERNS U) := by
  unfold RedactPolicy.activePatterns
  cases policy.enabledPatterns with
  | none => exact List.Sublist.refl _
  | some enabled => exact List.filter_sublist

theorem replaceEach_nil (active : List Pattern) : replaceEach active [] = [] := by
  induction active with
  | nil => rfl
  | cons p active ih => exact ih

/-- the empty text makes no exception -/
theorem apply_enabled {U : Unicode} {policy : RedactPolicy} {surface : Surface}
    (h : policy.isEnabled surface = true) (text : List Char) :
    apply U policy surface text = replaceEach (policy.activePatterns U) text := by
  unfold apply
  rw [h]
  cases text with
  | nil => exact (replaceEach_nil _).symm
  | cons c text => rfl

theorem apply_disabled {U : Unicode} {policy : RedactPolicy} {surface : Surface}
    (h : policy.isEnabled surface = false) (text : List Char) :
    apply U policy surface text = text := by
  unfold apply
  rw [h]
  rfl

end Moagan.Redact
