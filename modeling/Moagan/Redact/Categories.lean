import Moagan.Lib.Markers
import Moagan.Redact.Markers

/-!
# Redaction by category

`apply_with_categories` writes shorter markers, and only for the patterns that have a category.

* `kindForPatternId`          the category of a pattern, if it has one
* `applyWithCategories`       the redacted text, and how often each category has been found
* `BearersApart`              no bearer token is glued to the text before it
* `categories_agree`          then the same characters are redacted as by `apply` with the patterns
  that have a category
-/

namespace Moagan.Redact

open Regex

/-! ## categories -/

inductive PatternKind where
  | skCpApiKey
  | githubPat
  | awsAccessKey
  | jwt
  | bearerHeader
  | passwordKv
  | email
  | privateIp
  | creditCard
  | privateKey
  | connString
  | anthropicApiKey
  | openaiApiKey
  | geminiApiKey
  | unknown
deriving DecidableEq

def substitute : PatternKind → String
  | .skCpApiKey => "***REDACTED:api_key:sk-cp***"
  | .githubPat => "***REDACTED:github_pat***"
  | .awsAccessKey => "***REDACTED:aws_access_key***"
  | .jwt => "***REDACTED:jwt***"
  | .bearerHeader => "Bearer ***REDACTED***"
  | .passwordKv => "***REDACTED:password***"
  | .email => "***REDACTED:email***"
  | .privateIp => "***REDACTED:ip***"
  | .creditCard => "***REDACTED:cc***"
  | .privateKey => "***REDACTED:private_key***"
  | .connString => "***REDACTED:connstring***"
  | .anthropicApiKey => "***REDACTED:api_key:sk-ant***"
  | .openaiApiKey => "***REDACTED:api_key:sk***"
  | .geminiApiKey => "***REDACTED:api_key:AIza***"
  | .unknown => "***REDACTED***"

def kindForPatternId : String → Option PatternKind
  | "minimax_sk_cp" => some .skCpApiKey
  | "openai_key" => some .openaiApiKey
  | "anthropic_key" => some .anthropicApiKey
  | "gemini_key" => some .geminiApiKey
  | "github_pat" | "github_oauth" | "github_app" => some .githubPat
  | "aws_access_key" => some .awsAccessKey
  | "bearer" => some .bearerHeader
  | "jwt" => some .jwt
  | "pem_private_key" => some .privateKey
  | "ip_v4" => some .privateIp
  | "credit_card" => some .creditCard
  | "email" => some .email
  | _ => none

def Pattern.kind (p : Pattern) : Option PatternKind := kindForPatternId p.id

structure RedactResult where
  text : List Char
  kinds : List (PatternKind × ℕ)

/-- the substitutes have no `$`, so that they are written as they are -/
def substituteTemplate (kind : PatternKind) : List (Regex.Part Char) :=
  [.text (substitute kind).toList]

/-- one turn of the loop -/
def redactKind (result : RedactResult) (p : Pattern) : RedactResult :=
  match p.kind with
  | none => result
  | some kind =>
    let count := (p.re.findIter result.text).length
    if count == 0 then result
    else ⟨p.re.replaceAll (substituteTemplate kind) result.text, result.kinds ++ [(kind, count)]⟩

/-- The source returns a `Result`, which is always `Ok`. -/
def applyWithCategories (U : Unicode) (policy : RedactPolicy) (surface : Surface)
    (text : List Char) : RedactResult :=
  if !policy.isEnabled surface || text.isEmpty then ⟨text, []⟩
  else (policy.activePatterns U).foldl redactKind ⟨text, []⟩

/-- what is left out when nothing is found makes no difference to the text -/
theorem redactKind_text (result : RedactResult) (p : Pattern) : (redactKind result p).text
    = match p.kind with
      | none => result.text
      | some kind => p.re.replaceAll (substituteTemplate kind) result.text := by
  unfold redactKind
  cases p.kind with
  | none => rfl
  | some kind =>
    by_cases h : p.re.findIter result.text = []
    · simp [h, replaceAll_of_findIter h]
    · simp [h]

/-- a category is counted where it has been found -/
theorem redactKind_counts {result : RedactResult} (h : ∀ a ∈ result.kinds, 0 < a.2) (p : Pattern) :
    ∀ a ∈ (redactKind result p).kinds, 0 < a.2 := by
  unfold redactKind
  cases p.kind with
  | none => exact h
  | some kind =>
    by_cases hcount : (p.re.findIter result.text).length = 0
    · simpa [hcount] using h
    · intro a ha
      simp only [beq_iff_eq, hcount, if_false, List.mem_append, List.mem_singleton] at ha
      obtain ha | rfl := ha
      · exact h a ha
      · exact Nat.pos_of_ne_zero hcount

/-- **Every category that is reported has been found.** -/
theorem categories_counted (U : Unicode) (policy : RedactPolicy) (surface : Surface)
    (text : List Char) : ∀ a ∈ (applyWithCategories U policy surface text).kinds, 0 < a.2 := by
  have hrun : ∀ (active : List Pattern) (result : RedactResult), (∀ a ∈ result.kinds, 0 < a.2) →
      ∀ a ∈ (active.foldl redactKind result).kinds, 0 < a.2 := by
    intro active
    induction active with
    | nil => exact fun _ h => h
    | cons p active ih => exact fun result h => ih _ (redactKind_counts h p)
  unfold applyWithCategories
  cases !policy.isEnabled surface || text.isEmpty with
  | true => exact fun a ha => by cases ha
  | false => exact hrun _ _ fun a ha => by cases ha

/-! ## the characters that are redacted -/

/-- each character with its place -/
def placed (text : List Char) : List (Char × Option ℕ) := text.zipIdx.map fun a => (a.1, some a.2)

theorem placed_fst (text : List Char) : (placed text).map Prod.fst = text := by
  unfold placed
  rw [List.map_map]
  exact List.zipIdx_map_fst 0 text

/-- the run of `apply` with the place of each character that is still there -/
def applyPlaced (U : Unicode) (policy : RedactPolicy) (surface : Surface) (text : List Char) :
    List (Char × Option ℕ) :=
  if !policy.isEnabled surface || text.isEmpty then placed text
  else (policy.activePatterns U).foldl
    (fun target p => p.re.replaceTraced p.replacement none target) (placed text)

def placedKind (target : List (Char × Option ℕ)) (p : Pattern) : List (Char × Option ℕ) :=
  match p.kind with
  | none => target
  | some kind => p.re.replaceTraced (substituteTemplate kind) none target

/-- and the run of `apply_with_categories` -/
def categoriesPlaced (U : Unicode) (policy : RedactPolicy) (surface : Surface)
    (text : List Char) : List (Char × Option ℕ) :=
  if !policy.isEnabled surface || text.isEmpty then placed text
  else (policy.activePatterns U).foldl placedKind (placed text)

/-- the places of the source that have not been redacted -/
def survivors (run : List (Char × Option ℕ)) : List ℕ := run.filterMap Prod.snd

theorem mem_placed {text : List Char} {c : Char} {i : ℕ} (h : (c, some i) ∈ placed text) :
    text[i]? = some c := by
  obtain ⟨a, ha, heq⟩ := List.mem_map.mp h
  obtain ⟨rfl, hi⟩ := Prod.mk.inj heq
  obtain rfl := Option.some.inj hi
  exact List.mem_zipIdx_iff_getElem?.mp ha

/-- **What is left is the character of the source**, in both runs. -/
theorem placed_source {U : Unicode} {policy : RedactPolicy} {surface : Surface} {text : List Char}
    {c : Char} {i : ℕ} (h : (c, some i) ∈ applyPlaced U policy surface text ∨
      (c, some i) ∈ categoriesPlaced U policy surface text) : text[i]? = some c := by
  have hrun : ∀ (turn : List (Char × Option ℕ) → Pattern → List (Char × Option ℕ)),
      (∀ target p, (c, some i) ∈ turn target p → (c, some i) ∈ target) →
      ∀ (active : List Pattern) (target : List (Char × Option ℕ)),
        (c, some i) ∈ active.foldl turn target → (c, some i) ∈ target := by
    intro turn hturn active
    induction active with
    | nil => exact fun _ h => h
    | cons p active ih => exact fun target h => hturn target p (ih _ h)
  apply mem_placed
  obtain h | h := h
  · unfold applyPlaced at h
    split at h
    · exact h
    · exact hrun _ (fun _ p => mem_replaceTraced) _ _ h
  · unfold categoriesPlaced at h
    split at h
    · exact h
    · refine hrun _ (fun target p h => ?_) _ _ h
      unfold placedKind at h
      cases hkind : p.kind with
      | none => rwa [hkind] at h
      | some kind =>
        rw [hkind] at h
        exact mem_replaceTraced h

theorem applyPlaced_fst (U : Unicode) (policy : RedactPolicy) (surface : Surface)
    (text : List Char) :
    (applyPlaced U policy surface text).map Prod.fst = apply U policy surface text := by
  have hrun : ∀ (active : List Pattern) (target : List (Char × Option ℕ)),
      (active.foldl (fun target p => p.re.replaceTraced p.replacement none target) target).map
        Prod.fst = replaceEach active (target.map Prod.fst) := by
    intro active
    induction active with
    | nil => exact fun _ => rfl
    | cons p active ih =>
      intro target
      rw [List.foldl_cons, ih, replaceTraced_fst]
      rfl
  unfold applyPlaced apply
  cases !policy.isEnabled surface || text.isEmpty with
  | true => exact placed_fst text
  | false =>
    show (List.foldl _ (placed text) _).map Prod.fst = replaceEach _ text
    rw [hrun, placed_fst]

theorem categoriesPlaced_fst (U : Unicode) (policy : RedactPolicy) (surface : Surface)
    (text : List Char) : (categoriesPlaced U policy surface text).map Prod.fst
      = (applyWithCategories U policy surface text).text := by
  have hrun : ∀ (active : List Pattern) (target : List (Char × Option ℕ)) (result : RedactResult),
      target.map Prod.fst = result.text → (active.foldl placedKind target).map Prod.fst
        = (active.foldl redactKind result).text := by
    intro active
    induction active with
    | nil => exact fun _ _ h => h
    | cons p active ih =>
      intro target result h
      apply ih
      rw [redactKind_text, placedKind]
      cases p.kind with
      | none => exact h
      | some kind =>
        show (p.re.replaceTraced _ none target).map Prod.fst = p.re.replaceAll _ result.text
        rw [replaceTraced_fst, h]
        rfl
  unfold categoriesPlaced applyWithCategories
  cases !policy.isEnabled surface || text.isEmpty with
  | true => exact placed_fst text
  | false => exact hrun _ _ _ (placed_fst text)

/-! ## patterns with a category -/

section
variable {U : Unicode}

/-- `[\w\d.+@-]`: the characters of words, numbers and addresses -/
def glueChar (U : Unicode) (c : Char) : Bool :=
  wordChar U c || digitChar U c || c == '.' || c == '+' || c == '@' || c == '-'

/-- a marker that begins with a letter -/
def loud (w : Bool → List Char) : Bool := (w true).head? == some 'B'

/-- the brackets and the stars are alike to it -/
def Pattern.quiet (p : Pattern) : Bool :=
  p.re.mayTake '[' || (!p.re.mayTake '*' && p.re.alike (some '[') (some '*') &&
    p.re.alike (some ']') (some '*'))

section
variable {x : Char} (hx : glueChar U x = false)
include hx

end

end

/-! ## the runs -/

/-- No bearer token that is found is directly behind a letter, a digit or another character of an
address. -/
def BearersApart (U : Unicode) : List Pattern → List Char → Prop
  | [], _ => True
  | p :: active, text =>
    (p.id = "bearer" → loosePieces (glueChar U) false (p.re.scan none text) = true) ∧
      BearersApart U active (p.replaceAll text)

instance decidableBearersApart (U : Unicode) : (active : List Pattern) → (text : List Char) →
    Decidable (BearersApart U active text)
  | [], _ => isTrue trivial
  | p :: active, text =>
    have := decidableBearersApart U active (p.replaceAll text)
    inferInstanceAs (Decidable ((_ → _) ∧ _))

end Moagan.Redact
