import Mathlib.Data.List.Induction
import Mathlib.Logic.Function.Basic
import Moagan.Json.Value
import Moagan.Lib.Separated

/-!
# The key of the response cache (`src/llm/cache/mod.rs`, `build_cache_key`, `src/ids.rs`)

* `LlmRequest`            a request with all its fields
* `canonicalJoin`         the parts of a key behind one another, with `0x1f` between them
* `keyParts`              the canonical input set of a key, with its labels
* `KeyFields`             the fields of a request that the key depends on
* `buildCacheKey_separates`   requests with plain texts share a key iff they agree on `KeyFields`

`F` are the `f32` values and `display` is their `Display`; the digests are parameters.
-/

namespace Moagan.CacheKey

open Separated

/-! ## requests -/

inductive Role where
  | intake | clarify | route | thesis | propose | gate | critique | repair | judge | rank | deliver
  | synthesizer | adversary | decomposer | mergeSynthesizer | tiefighterCritic | finalDisagreement
  | jsonRepairV2 | hostilePromptDetector | continuation | dimensionDeriver | curator
deriving DecidableEq, Repr

def Role.all : List Role :=
  [.intake, .clarify, .route, .thesis, .propose, .gate, .critique, .repair, .judge, .rank,
    .deliver, .synthesizer, .adversary, .decomposer, .mergeSynthesizer, .tiefighterCritic,
    .finalDisagreement, .jsonRepairV2, .hostilePromptDetector, .continuation, .dimensionDeriver,
    .curator]

theorem Role.mem_all (r : Role) : r ∈ Role.all := by cases r <;> decide

def Role.asStr : Role → String
  | .intake => "intake"
  | .clarify => "clarify"
  | .route => "route"
  | .thesis => "thesis"
  | .propose => "propose"
  | .gate => "gate"
  | .critique => "critique"
  | .repair => "repair"
  | .judge => "judge"
  | .rank => "rank"
  | .deliver => "deliver"
  | .synthesizer => "synthesizer"
  | .adversary => "adversary"
  | .decomposer => "decomposer"
  | .mergeSynthesizer => "merge_synthesizer"
  | .tiefighterCritic => "tiefighter_critic"
  | .finalDisagreement => "final_disagreement"
  | .jsonRepairV2 => "json_repair_v2"
  | .hostilePromptDetector => "hostile_prompt_detector"
  | .continuation => "continuation"
  | .dimensionDeriver => "dimension_deriver"
  | .curator => "curator"

/-- the theses and the proposals are cached per run -/
def Role.cachesPerRun : Role → Bool
  | .thesis | .propose => true
  | _ => false

structure Message where
  role : String
  content : String

structure Attachment where
  mime : String
  modality : String
  data : List UInt8

inductive ToolChoice where
  | auto | required | none

/-- `F` are the `f32` values -/
structure LlmRequest (F : Type*) where
  role : Role
  model : String
  system : String
  user : String
  maxTokens : Option ℕ
  temperature : Option F
  topP : Option F
  topK : Option ℕ
  responseSchema : Option Value
  stream : Bool
  extraMessages : List Message
  attachments : List Attachment
  toolChoice : Option ToolChoice

/-! ## the join -/

/-- the separator -/
def unitSep : UInt8 := 0x1f

def canonicalJoin (parts : List String) : List UInt8 :=
  parts.zipIdx.foldl
    (fun buf part => (if part.2 > 0 then buf ++ [unitSep] else buf) ++ bytes part.1) []

theorem canonicalJoin_eq (parts : List String) :
    canonicalJoin parts = [unitSep].intercalate (parts.map bytes) := by
  unfold canonicalJoin
  induction parts using List.reverseRecOn with
  | nil => rfl
  | append_singleton parts p ih =>
    rw [List.zipIdx_append, List.foldl_append, ih, List.map_append]
    cases parts with
    | nil => simp
    | cons q qs =>
      rw [List.map_singleton, intercalate_concat unitSep (by simp)]
      simp

/-- a text without U+001F -/
def Plain (s : String) : Prop := '\x1f' ∉ s.toList

instance (s : String) : Decidable (Plain s) := inferInstanceAs (Decidable ('\x1f' ∉ s.toList))

theorem plain_bytes {s : String} (h : Plain s) : unitSep ∉ bytes s :=
  fun hm => h (mem_bytes_ascii (by decide) hm)

/-- **The join of plain texts determines them.** -/
theorem canonicalJoin_inj {xs ys : List String} (hxs : xs ≠ []) (hys : ys ≠ [])
    (hx : ∀ x ∈ xs, Plain x) (hy : ∀ y ∈ ys, Plain y) :
    canonicalJoin xs = canonicalJoin ys ↔ xs = ys := by
  have clean : ∀ zs : List String, (∀ z ∈ zs, Plain z) → ∀ b ∈ zs.map bytes, unitSep ∉ b := by
    intro zs hz b hb
    obtain ⟨z, hzm, rfl⟩ := List.mem_map.mp hb
    exact plain_bytes (hz z hzm)
  rw [canonicalJoin_eq, canonicalJoin_eq, intercalate_inj unitSep (by simpa using hxs)
    (by simpa using hys) (clean xs hx) (clean ys hy)]
  exact List.map_inj_right fun a b h => bytes_inj.mp h

/-- **A text that holds U+001F joins as the two texts around it.** -/
theorem canonicalJoin_forge (xs ys : List String) (a b : String) :
    canonicalJoin (xs ++ (a ++ "\x1f" ++ b) :: ys) = canonicalJoin (xs ++ a :: b :: ys) := by
  have hsep : bytes (a ++ "\x1f" ++ b) = bytes a ++ unitSep :: bytes b := by
    have : bytes "\x1f" = [unitSep] := by decide
    rw [bytes_append, bytes_append, this, List.append_assoc]
    rfl
  rw [canonicalJoin_eq, canonicalJoin_eq, List.map_append, List.map_append, List.map_cons, hsep]
  exact intercalate_forge unitSep _ _ _ _

theorem canonicalJoin_concat {xs ys : List String} (hxs : xs ≠ []) (hys : ys ≠ []) (p : String) :
    canonicalJoin (xs ++ [p]) = canonicalJoin (ys ++ [p]) ↔ canonicalJoin xs = canonicalJoin ys := by
  simp only [canonicalJoin_eq, List.map_append, List.map_singleton]
  rw [intercalate_concat unitSep (by simpa using hxs), intercalate_concat unitSep (by simpa using hys)]
  exact List.append_left_inj _

/-! ## the key -/

inductive CacheHashAlgo where
  | sha256 | blake3
deriving DecidableEq, Repr

/-- the two digests, in hexadecimal -/
structure Digests where
  blake3Hex : List UInt8 → String
  sha256Hex : List UInt8 → String

def Digests.hex (H : Digests) : CacheHashAlgo → List UInt8 → String
  | .blake3 => H.blake3Hex
  | .sha256 => H.sha256Hex

section
variable {F : Type*} (H : Digests) (display : F → String) (promptSetHash : String)

def canonicalHash (parts : List String) : String := H.blake3Hex (canonicalJoin parts)

/-- the parts of `cache_key` and of `build_cache_key`, in front of the prompt-set hash -/
def keyTexts (req : LlmRequest F) (provider model : String) : List String :=
  ["role", req.role.asStr, "provider", provider, "model", model, "system", req.system,
    "user", req.user, "max_tokens", (req.maxTokens.map Nat.repr).getD "",
    "temperature", (req.temperature.map display).getD "",
    "top_p", (req.topP.map display).getD "", "prompt_set_hash"]

def keyParts (req : LlmRequest F) (provider model : String) : List String :=
  keyTexts display req provider model ++ [promptSetHash]

/-- `Cache::cache_key` -/
def cacheKey (req : LlmRequest F) (provider model : String) : String :=
  canonicalHash H (keyParts display promptSetHash req provider model)

def buildCacheKey (req : LlmRequest F) (provider model : String) (algo : CacheHashAlgo) : String :=
  match algo with
  | .blake3 => canonicalHash H (keyParts display promptSetHash req provider model)
  | .sha256 => H.sha256Hex (canonicalJoin (keyParts display promptSetHash req provider model))

def runScopedKey (req : LlmRequest F) (provider model runId : String) : String :=
  canonicalHash H
    ["cache_key", cacheKey H display promptSetHash req provider model, "run_id", runId]

def keyFor (req : LlmRequest F) (provider model runId : String) : String :=
  if req.role.cachesPerRun then runScopedKey H display promptSetHash req provider model runId
  else cacheKey H display promptSetHash req provider model

theorem buildCacheKey_eq (req : LlmRequest F) (provider model : String) (algo : CacheHashAlgo) :
    buildCacheKey H display promptSetHash req provider model algo
      = H.hex algo (canonicalJoin (keyParts display promptSetHash req provider model)) := by
  cases algo <;> rfl

/-! ## what the key depends on -/

/-- the canonical input set -/
structure KeyFields (F : Type*) where
  role : Role
  provider : String
  model : String
  system : String
  user : String
  maxTokens : Option ℕ
  temperature : Option F
  topP : Option F
deriving DecidableEq

def keyFields (req : LlmRequest F) (provider model : String) : KeyFields F where
  role := req.role
  provider := provider
  model := model
  system := req.system
  user := req.user
  maxTokens := req.maxTokens
  temperature := req.temperature
  topP := req.topP

/-- no free text of the key holds U+001F -/
def PlainTexts (req : LlmRequest F) (provider model : String) : Prop :=
  Plain provider ∧ Plain model ∧ Plain req.system ∧ Plain req.user

/-- what `Display` promises: different values print differently, in digits, signs and letters -/
structure Printed (display : F → String) : Prop where
  inj : Function.Injective display
  plain : ∀ t, Plain (display t)
  ne_empty : ∀ t, display t ≠ ""

variable {display}

theorem render_inj {α : Type*} {f : α → String} (hf : Function.Injective f) (hne : ∀ t, f t ≠ "")
    (a b : Option α) : (a.map f).getD "" = (b.map f).getD "" ↔ a = b := by
  cases a with
  | none =>
    cases b with
    | none => simp
    | some y => simpa using (hne y).symm
  | some x =>
    cases b with
    | none => simpa using hne x
    | some y => simpa using hf.eq_iff

theorem render_plain {α : Type*} {f : α → String} (hf : ∀ t, Plain (f t)) (a : Option α) :
    Plain ((a.map f).getD "") := by
  cases a with
  | none =>
    show Plain ""
    decide
  | some x => exact hf x

theorem repr_plain (n : ℕ) : Plain n.repr := by
  intro h
  have := mem_repr h
  revert this
  decide

/-- the names of the roles, and the labels -/
theorem names_checked : (∀ a ∈ Role.all, ∀ b ∈ Role.all, a.asStr = b.asStr → a = b) ∧
    (∀ a ∈ Role.all, Plain a.asStr) ∧ ∀ t ∈ ["role", "provider", "model", "system", "user",
      "max_tokens", "temperature", "top_p", "prompt_set_hash"], Plain t := by
  decide +kernel

theorem role_inj {r s : Role} : r.asStr = s.asStr ↔ r = s := by
  constructor
  · exact names_checked.1 r r.mem_all s s.mem_all
  · intro h
    rw [h]

theorem role_plain (r : Role) : Plain r.asStr := names_checked.2.1 r r.mem_all

theorem keyTexts_plain (hd : Printed display) {req : LlmRequest F} {provider model : String}
    (h : PlainTexts req provider model) : ∀ t ∈ keyTexts display req provider model, Plain t := by
  obtain ⟨hp, hm, hs, hu⟩ := h
  have labels := names_checked.2.2
  simp only [List.forall_mem_cons] at labels
  obtain ⟨l1, l2, l3, l4, l5, l6, l7, l8, l9, -⟩ := labels
  simp only [keyTexts, List.forall_mem_cons]
  exact ⟨l1, role_plain _, l2, hp, l3, hm, l4, hs, l5, hu, l6, render_plain repr_plain _, l7,
    render_plain hd.plain _, l8, render_plain hd.plain _, l9, by simp⟩

theorem keyTexts_inj (hd : Printed display) {r₁ r₂ : LlmRequest F} {p₁ m₁ p₂ m₂ : String} :
    keyTexts display r₁ p₁ m₁ = keyTexts display r₂ p₂ m₂ ↔
      keyFields r₁ p₁ m₁ = keyFields r₂ p₂ m₂ := by
  simp only [keyTexts, keyFields, List.cons.injEq, KeyFields.mk.injEq, role_inj, true_and, and_true,
    render_inj hd.inj hd.ne_empty,
    render_inj (f := Nat.repr) (fun _ _ h => Separated.repr_inj.mp h) repr_ne_empty]

theorem keyParts_join_inj (hd : Printed display) {r₁ r₂ : LlmRequest F} {p₁ m₁ p₂ m₂ : String}
    (h₁ : PlainTexts r₁ p₁ m₁) (h₂ : PlainTexts r₂ p₂ m₂) :
    canonicalJoin (keyParts display promptSetHash r₁ p₁ m₁)
        = canonicalJoin (keyParts display promptSetHash r₂ p₂ m₂) ↔
      keyFields r₁ p₁ m₁ = keyFields r₂ p₂ m₂ := by
  have hne : ∀ r p m, keyTexts display r p m ≠ [] := fun _ _ _ => List.cons_ne_nil _ _
  unfold keyParts
  rw [canonicalJoin_concat (hne _ _ _) (hne _ _ _), canonicalJoin_inj (hne _ _ _) (hne _ _ _)
    (keyTexts_plain hd h₁) (keyTexts_plain hd h₂), keyTexts_inj hd]

/-- **Requests with plain texts share a key iff they agree on the canonical input set.**  The
digests may collide, only not on the two inputs at hand. -/
theorem buildCacheKey_separates (hd : Printed display) {r₁ r₂ : LlmRequest F}
    {p₁ m₁ p₂ m₂ : String} (h₁ : PlainTexts r₁ p₁ m₁) (h₂ : PlainTexts r₂ p₂ m₂)
    (hcoll : ∀ algo, H.hex algo (canonicalJoin (keyParts display promptSetHash r₁ p₁ m₁))
        = H.hex algo (canonicalJoin (keyParts display promptSetHash r₂ p₂ m₂)) →
      canonicalJoin (keyParts display promptSetHash r₁ p₁ m₁)
        = canonicalJoin (keyParts display promptSetHash r₂ p₂ m₂)) :
    (∀ algo, buildCacheKey H display promptSetHash r₁ p₁ m₁ algo
        = buildCacheKey H display promptSetHash r₂ p₂ m₂ algo ↔
      keyFields r₁ p₁ m₁ = keyFields r₂ p₂ m₂) ∧
    (cacheKey H display promptSetHash r₁ p₁ m₁ = cacheKey H display promptSetHash r₂ p₂ m₂ ↔
      keyFields r₁ p₁ m₁ = keyFields r₂ p₂ m₂) ∧
    ∀ xs ys : List String, xs ≠ [] → ys ≠ [] → (∀ x ∈ xs, Plain x) → (∀ y ∈ ys, Plain y) →
      canonicalJoin xs = canonicalJoin ys → xs = ys := by
  have key : ∀ algo, buildCacheKey H display promptSetHash r₁ p₁ m₁ algo
        = buildCacheKey H display promptSetHash r₂ p₂ m₂ algo ↔
      keyFields r₁ p₁ m₁ = keyFields r₂ p₂ m₂ := by
    intro algo
    rw [buildCacheKey_eq, buildCacheKey_eq, ← keyParts_join_inj promptSetHash hd h₁ h₂]
    exact ⟨hcoll algo, fun h => by rw [h]⟩
  refine ⟨key, key .blake3, ?_⟩
  intro xs ys hxs hys hx hy h
  exact (canonicalJoin_inj hxs hys hx hy).mp h

/-- **The scoped keys tell the runs apart.** -/
theorem runScopedKey_separates {r₁ r₂ : LlmRequest F} {p₁ m₁ p₂ m₂ run₁ run₂ : String}
    (hhex : ∀ b, Plain (H.blake3Hex b)) (hrun₁ : Plain run₁) (hrun₂ : Plain run₂)
    (hcoll : ∀ xs ys, canonicalHash H xs = canonicalHash H ys →
      canonicalJoin xs = canonicalJoin ys) :
    runScopedKey H display promptSetHash r₁ p₁ m₁ run₁
        = runScopedKey H display promptSetHash r₂ p₂ m₂ run₂ ↔
      cacheKey H display promptSetHash r₁ p₁ m₁ = cacheKey H display promptSetHash r₂ p₂ m₂ ∧
        run₁ = run₂ := by
  have plain : ∀ r p m run, Plain run →
      ∀ t ∈ ["cache_key", cacheKey H display promptSetHash r p m, "run_id", run], Plain t := by
    intro r p m run hrun
    simp only [List.forall_mem_cons]
    exact ⟨by decide, hhex _, by decide, hrun, by simp⟩
  constructor
  · intro h
    have := (canonicalJoin_inj (List.cons_ne_nil _ _) (List.cons_ne_nil _ _)
      (plain r₁ p₁ m₁ run₁ hrun₁) (plain r₂ p₂ m₂ run₂ hrun₂)).mp (hcoll _ _ h)
    simpa using this
  · rintro ⟨h1, h2⟩
    rw [runScopedKey, runScopedKey, h1, h2]

end

/-! ## two requests with one key -/

/-- tenths below 1, as `f32` prints them -/
def tenths (n : ℕ) : String := "0." ++ n.repr

theorem tenths_printed : Printed tenths where
  inj m n h := Separated.repr_inj.mp ((String.append_right_inj "0.").mp h)
  plain n := by
    show '\x1f' ∉ ("0." ++ n.repr).toList
    rw [String.toList_append, List.mem_append, not_or]
    exact ⟨by decide, repr_plain n⟩
  ne_empty n h := by
    have := congrArg String.length h
    rw [tenths, String.length_append] at this
    have h2 : "0.".length = 2 := by decide
    have h0 : "".length = 0 := by decide
    omega

def sampleRequest (temperature : ℕ) (topK : Option ℕ) : LlmRequest ℕ where
  role := .thesis
  model := "MiniMax-M3"
  system := "system prompt"
  user := "user prompt"
  maxTokens := some 4096
  temperature := some temperature
  topP := none
  topK := topK
  responseSchema := none
  stream := false
  extraMessages := []
  attachments := []
  toolChoice := none

/-- a stand-in of 64 zeros -/
def samplePrompts : String := String.ofList (List.replicate 64 '0')

def sampleInput (temperature : ℕ) : List UInt8 :=
  canonicalJoin (keyParts tenths samplePrompts (sampleRequest temperature none) "minimax" "MiniMax-M3")

/-- the digests of two inputs -/
def sampleDigests : Digests where
  blake3Hex b :=
    if b = sampleInput 5 then "0552dbed847b0de6bebfb6fd0b82d99bf8dbca45fa285b1806cc2170debb534c"
    else if b = sampleInput 7 then
      "37a568b2ef456eaed9f8190c991d7c7ed204d0b37c6ef7ea3a19361f378e74d6"
    else ""
  sha256Hex b :=
    if b = sampleInput 5 then "2e8e1ef5e6c07a4ee4b087d761fdaf09d12dbcd66c6f30eff20520811fff293b"
    else if b = sampleInput 7 then
      "ce689e312cad9054771ebc1006d374749856a141e355e4b9e31c5ff6eb98bc3c"
    else ""

/-- a request with `top_k` shares its key with the one without, under any digests; two lists of
texts share their join -/
theorem shared_keys :
    (∀ (H : Digests) (algo : CacheHashAlgo),
      buildCacheKey H tenths samplePrompts (sampleRequest 5 none) "minimax" "MiniMax-M3" algo
        = buildCacheKey H tenths samplePrompts (sampleRequest 5 (some 40)) "minimax" "MiniMax-M3"
          algo ∧
      cacheKey H tenths samplePrompts (sampleRequest 5 none) "minimax" "MiniMax-M3"
        = cacheKey H tenths samplePrompts (sampleRequest 5 (some 40)) "minimax" "MiniMax-M3") ∧
    (sampleRequest 5 none).topK ≠ (sampleRequest 5 (some 40)).topK ∧
    canonicalJoin ["a\x1fb"] = canonicalJoin ["a", "b"] ∧ ["a\x1fb"] ≠ ["a", "b"] :=
  ⟨fun _ algo => ⟨by cases algo <;> rfl, rfl⟩, by decide, by decide +kernel, by decide⟩

theorem samples_checked : sampleInput 5 ≠ sampleInput 7 ∧
    ∀ t ∈ ["minimax", "MiniMax-M3", "system prompt", "user prompt"], Plain t := by
  decide +kernel

theorem sampleDigests_coll (algo : CacheHashAlgo)
    (h : sampleDigests.hex algo (sampleInput 5) = sampleDigests.hex algo (sampleInput 7)) :
    sampleInput 5 = sampleInput 7 := by
  have hne := samples_checked.1.symm
  cases algo with
  | blake3 =>
    have : sampleDigests.blake3Hex (sampleInput 5) = sampleDigests.blake3Hex (sampleInput 7) := h
    simp only [sampleDigests, if_true, if_neg hne] at this
    exact absurd this (by decide)
  | sha256 =>
    have : sampleDigests.sha256Hex (sampleInput 5) = sampleDigests.sha256Hex (sampleInput 7) := h
    simp only [sampleDigests, if_true, if_neg hne] at this
    exact absurd this (by decide)

theorem sampleRequest_plain (t : ℕ) (k : Option ℕ) :
    PlainTexts (sampleRequest t k) "minimax" "MiniMax-M3" := by
  have h := samples_checked.2
  simp only [List.forall_mem_cons] at h
  obtain ⟨hprovider, hmodel, hsystem, huser, -⟩ := h
  exact ⟨hprovider, hmodel, hsystem, huser⟩

/-- two temperatures, two keys -/
theorem buildCacheKey_separates_sample :
    buildCacheKey sampleDigests tenths samplePrompts (sampleRequest 5 none) "minimax" "MiniMax-M3"
        .blake3 ≠
      buildCacheKey sampleDigests tenths samplePrompts (sampleRequest 7 none) "minimax" "MiniMax-M3"
        .blake3 := by
  intro h
  have key := ((buildCacheKey_separates sampleDigests samplePrompts tenths_printed
    (sampleRequest_plain 5 none) (sampleRequest_plain 7 none) sampleDigests_coll).1 .blake3).mp h
  exact absurd (congrArg KeyFields.temperature key) (by decide)

end Moagan.CacheKey
