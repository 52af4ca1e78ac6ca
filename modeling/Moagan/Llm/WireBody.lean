import Mathlib.Data.List.Basic
import Moagan.Lib.JsonWrite
import Moagan.Llm.CacheKey

/-!
# The bodies on the wire, and the digest of the audit log (`src/llm/http.rs`, `src/llm/client`)

* `bodyFromRequest`, `buildChatRequestBody`, `buildResponsesBody`   the bodies of the three SDKs
* `SdkClient.sendOnce`   one call of an SDK client: its body, posted again while answers allow it
* `BreakeredClient.send` the cascade around it: omissions known before, retries without what the
                         upstream rejected
* `dispatch`             the dispatcher logs the digest of the wrapper, then sends
* `dispatch_digest`      the log names the bodies that were sent iff the inner client is the
                         Anthropic one and the cascade drops no parameter that the request sets

What each upstream answers is a parameter: the answer to every request of every call.
-/

namespace Moagan.WireBody

open CacheKey JsonWrite Scanning Separated

abbrev Body := List UInt8

/-- what the clients find around them -/
structure Host (F : Type*) where
  /-- `serde_json` on a finite `f32` -/
  f32Text : F → Text
  /-- `serde_json` on the bits of a finite `f64` -/
  f64Text : UInt64 → Text
  /-- the entries of `MOAGAN_RESPONSE_FORMAT_OPT_OUT`, trimmed, without the empty ones -/
  responseFormatOptOut : List String
  /-- the parameter names that `error.param` and the patterns on `error.message` capture -/
  captures : String → List String

variable {F : Type*}

/-! ## serialisation -/

def natText (n : ℕ) : Text := n.repr.toList

def boolText (b : Bool) : Text := (if b then "true" else "false").toList

/-- a field that is skipped when it is `None` -/
def optField {α : Type*} (key : String) (text : α → Text) : Option α → List Field
  | none => []
  | some a => [(key, text a)]

mutual

def valueText (h : Host F) : Value → Text
  | .null => "null".toList
  | .bool b => boolText b
  | .number (.posInt n) => natText n
  | .number (.negInt z) => z.repr.toList
  | .number (.float bits) => h.f64Text bits
  | .string s => quoted s
  | .array items => array (itemTexts h items)
  | .object entries => object (entryFields h entries)

def itemTexts (h : Host F) : List Value → List Text
  | [] => []
  | v :: vs => valueText h v :: itemTexts h vs

def entryFields (h : Host F) : List (String × Value) → List Field
  | [] => []
  | (k, v) :: es => (k, valueText h v) :: entryFields h es

end

/-- `serde_json::to_vec` of an object -/
def toVec (fields : List Field) : Body := bytes (String.ofList (object fields))

theorem toVec_inj {fs gs : List Field} : toVec fs = toVec gs ↔ object fs = object gs := by
  unfold toVec
  rw [bytes_inj, String.ofList_inj]

/-- a message of a body, with its `role` and its `content` -/
def messageText (m : Message) : Text :=
  object [("role", quoted m.role), ("content", quoted m.content)]

def messagesText (ms : List Message) : Text := array (ms.map messageText)

/-- `type` is the only field of the format objects -/
def jsonObjectText : Text := object [("type", quoted "json_object")]

/-! ## the JSON roles and their strategies -/

def roleRequiresJson : Role → Bool
  | .intake | .clarify | .route | .gate | .critique | .repair | .rank | .synthesizer | .adversary
  | .decomposer | .mergeSynthesizer => true
  | _ => false

inductive JsonRecoveryStrategy where
  | strict
  | lenient
  | continuation
  | promptPrefill
deriving DecidableEq, Repr

def eqIgnoreAsciiCase (a b : String) : Bool :=
  a.toList.map Char.toLower = b.toList.map Char.toLower

def strategyByModel : List (String × JsonRecoveryStrategy) :=
  [("kimi-k2.7-code", .lenient), ("kimi-k3", .lenient), ("kimi-k2.6", .lenient),
    ("glm-5.1", .lenient), ("glm-5.2", .lenient), ("hy3", .lenient), ("mimo-v2.5", .lenient),
    ("mimo-v2.5-pro", .lenient), ("deepseek-v4-pro", .promptPrefill),
    ("deepseek-v4-flash", .promptPrefill), ("minimax-m3", .continuation),
    ("minimax-m2.7", .continuation), ("minimax-m2.5", .continuation), ("gpt-5.6-luna", .strict)]

/-- `strategy_for` without profile overrides -/
def strategyFor (model : String) : JsonRecoveryStrategy :=
  match strategyByModel.find? fun e => eqIgnoreAsciiCase model e.1 with
  | some e => e.2
  | none => .lenient

def needsAssistantPrefill (s : JsonRecoveryStrategy) : Bool := s = .promptPrefill

def defaultOptOut : List String :=
  ["glm-5.1", "glm-5.2", "kimi-k2.6", "kimi-k2.7-code", "deepseek-v4-pro", "kimi-k3"]

def modelSkipsResponseFormat (h : Host F) (model : String) : Bool :=
  h.responseFormatOptOut.any (eqIgnoreAsciiCase model)
    || defaultOptOut.any (eqIgnoreAsciiCase model)

def wantsResponseFormat (h : Host F) (role : Role) (model : String) : Bool :=
  roleRequiresJson role && !modelSkipsResponseFormat h model

/-! ## the bodies -/

/-- the body of `/v1/messages`; `thinking` is never set -/
structure MessagesRequestBody (F : Type*) where
  model : String
  maxTokens : Option ℕ
  temperature : Option F
  topP : Option F
  system : String
  messages : List Message

/-- the fields of the sampling parameters -/
def samplingFields (h : Host F) (maxTokens : Option ℕ) (temperature topP : Option F) : List Field :=
  optField "max_tokens" natText maxTokens ++ optField "temperature" h.f32Text temperature
    ++ optField "top_p" h.f32Text topP

def MessagesRequestBody.fields (h : Host F) (b : MessagesRequestBody F) : List Field :=
  ("model", quoted b.model) :: (samplingFields h b.maxTokens b.temperature b.topP
    ++ [("system", quoted b.system), ("messages", messagesText b.messages)])

def messageRole (role : String) : String :=
  if role = "user" then "user" else if role = "assistant" then "assistant"
  else if role = "system" then "system" else "user"

def bodyFromRequest (req : LlmRequest F) : MessagesRequestBody F where
  model := req.model
  maxTokens := req.maxTokens
  temperature := req.temperature
  topP := req.topP
  system := req.system
  messages :=
    ⟨"user", req.user⟩ ::
      (if roleRequiresJson req.role && !req.extraMessages.isEmpty then
        req.extraMessages.map fun m => ⟨messageRole m.role, m.content⟩
      else if roleRequiresJson req.role && needsAssistantPrefill (strategyFor req.model) then
        [⟨"assistant", "\x7b"⟩]
      else [])

/-- the body of `/v1/chat/completions` -/
structure ChatRequest (F : Type*) where
  model : String
  messages : List Message
  maxTokens : Option ℕ
  temperature : Option F
  topP : Option F
  topK : Option ℕ
  stream : Bool
  responseFormat : Bool
  extra : Option (List (String × Value))

def ChatRequest.fields (h : Host F) (b : ChatRequest F) : List Field :=
  ("model", quoted b.model) :: ("messages", messagesText b.messages) ::
    (samplingFields h b.maxTokens b.temperature b.topP ++ optField "top_k" natText b.topK
      ++ [("stream", boolText b.stream)]
      ++ (if b.responseFormat then [("response_format", jsonObjectText)] else [])
      ++ entryFields h (b.extra.getD []))

def buildChatRequestBody (h : Host F) (model : String) (req : LlmRequest F)
    (extra : Option (List (String × Value))) : ChatRequest F where
  model := model
  messages :=
    ⟨"system", req.system⟩ :: ⟨"user", req.user⟩ :: (req.extraMessages
      ++ (if req.extraMessages.isEmpty && needsAssistantPrefill (strategyFor model) then
        [⟨"assistant", "\x7b"⟩] else []))
  maxTokens := req.maxTokens
  temperature := req.temperature
  topP := req.topP
  topK := req.topK
  stream := false
  responseFormat := roleRequiresJson req.role && !modelSkipsResponseFormat h model
  extra := extra

/-- the body of `/v1/responses` -/
structure ResponsesRequest (F : Type*) where
  model : String
  instructions : Option String
  input : String
  maxTokens : Option ℕ
  temperature : Option F
  topP : Option F
  text : Bool
  stream : Bool

def ResponsesRequest.fields (h : Host F) (b : ResponsesRequest F) : List Field :=
  ("model", quoted b.model) :: (optField "instructions" quoted b.instructions
    ++ [("input", quoted b.input)]
    ++ samplingFields h b.maxTokens b.temperature b.topP
    ++ (if b.text then [("text", object [("format", jsonObjectText)])] else [])
    ++ [("stream", boolText b.stream)])

def buildResponsesBody (h : Host F) (req : LlmRequest F) (model : String)
    (stream omitMaxTokens : Bool) : ResponsesRequest F where
  model := model
  instructions := some req.system
  input := req.user
  maxTokens := if omitMaxTokens then none else req.maxTokens
  temperature := req.temperature
  topP := req.topP
  text := wantsResponseFormat h req.role model
  stream := stream

/-! ## one call of an SDK client -/

structure ProviderError where
  httpStatus : Option ℕ
  /-- `parse_provider_error_body` -/
  body : String
  /-- the transport loop of the client posts again -/
  retryable : Bool

/-- what comes of one request -/
inductive Answer where
  | ok
  | err (e : ProviderError)

structure Sent where
  bodies : List Body
  result : Answer

/-- the transport loop, with `left` attempts behind this one -/
def postLoop (body : Body) (answer : ℕ → Answer) (attempt : ℕ) : ℕ → Sent
  | 0 => ⟨[body], answer attempt⟩
  | left + 1 =>
    match answer attempt with
    | .ok => ⟨[body], .ok⟩
    | .err e =>
      if e.retryable then
        let r := postLoop body answer (attempt + 1) left
        ⟨body :: r.bodies, r.result⟩
      else ⟨[body], .err e⟩

/-- both clients are built with it -/
def maxRetries : ℕ := 3

structure AnthropicClient where
  name : String
  model : String

inductive OpenAIVariant where
  | chat
  | responses

structure OpenAIClient where
  variant : OpenAIVariant
  name : String
  model : String
  omitMaxTokens : Bool
  extraBody : Option (List (String × Value))

inductive SdkClient where
  | anthropic (c : AnthropicClient)
  | openai (c : OpenAIClient)

def SdkClient.name : SdkClient → String
  | .anthropic c => c.name
  | .openai c => c.name

def SdkClient.model : SdkClient → String
  | .anthropic c => c.model
  | .openai c => c.model

def AnthropicClient.sendOnce (h : Host F) (_ : AnthropicClient) (req : LlmRequest F)
    (answer : ℕ → Answer) : Sent :=
  postLoop (toVec ((bodyFromRequest req).fields h)) answer 0 (maxRetries - 1)

def OpenAIClient.wireMaxTokens (c : OpenAIClient) (requested : Option ℕ) : Option ℕ :=
  if requested.isNone || c.omitMaxTokens then none else requested

def OpenAIClient.sendOnce (h : Host F) (c : OpenAIClient) (req : LlmRequest F)
    (answer : ℕ → Answer) : Sent :=
  match c.variant with
  | .chat =>
    postLoop (toVec ((buildChatRequestBody h c.model req c.extraBody).fields h)) answer 0
      (maxRetries - 1)
  | .responses =>
    if req.stream then
      postLoop (toVec ((buildResponsesBody h req c.model true c.omitMaxTokens).fields h)) answer 0 0
    else
      let body : ResponsesRequest F :=
        { model := c.model, instructions := some req.system, input := req.user,
          maxTokens := c.wireMaxTokens req.maxTokens, temperature := req.temperature,
          topP := req.topP, text := wantsResponseFormat h req.role c.model, stream := false }
      postLoop (toVec (body.fields h)) answer 0 (maxRetries - 1)

def SdkClient.sendOnce (h : Host F) (c : SdkClient) (req : LlmRequest F) (answer : ℕ → Answer) :
    Sent :=
  match c with
  | .anthropic a => a.sendOnce h req answer
  | .openai o => o.sendOnce h req answer

/-! ## the cascade -/

def paramNames : List String := ["temperature", "top_p", "max_tokens"]

def omitParamLlm (req : LlmRequest F) (param : String) : LlmRequest F :=
  if param = "temperature" then { req with temperature := none }
  else if param = "top_p" then { req with topP := none }
  else if param = "max_tokens" then { req with maxTokens := none }
  else req

/-- the rejected `(provider, model, param)` -/
abbrev ParamRejectionsTable := List (String × String × String)

def ParamRejectionsTable.shouldOmit (t : ParamRejectionsTable) (provider model param : String) :
    Bool := (provider, model, param) ∈ t

def ParamRejectionsTable.record (t : ParamRejectionsTable) (provider model param : String) :
    ParamRejectionsTable :=
  if t.shouldOmit provider model param then t else (provider, model, param) :: t

/-- the captured parameters that can be omitted, in the order of a `BTreeSet` -/
def detectAllRejections (h : Host F) (status : ℕ) (body : String) : List String :=
  if 400 ≤ status ∧ status < 500 then
    ["max_tokens", "temperature", "top_p"].filter fun p => p ∈ h.captures body
  else []

/-- what the cascade omits behind an answer -/
def detected (h : Host F) : Answer → List String
  | .ok => []
  | .err e =>
    match e.httpStatus with
    | some status => detectAllRejections h status e.body
    | none => []

structure BreakeredClient where
  inner : SdkClient
  cascadeNameOverride : Option String
  cascadeModelOverride : Option String
  paramRejections : Option ParamRejectionsTable

def BreakeredClient.name (c : BreakeredClient) : String := c.cascadeNameOverride.getD c.inner.name

def BreakeredClient.model (c : BreakeredClient) : String :=
  c.cascadeModelOverride.getD c.inner.model

def BreakeredClient.setParamRejections (c : BreakeredClient) (t : ParamRejectionsTable) :
    BreakeredClient := { c with paramRejections := some t }

/-- the table lists the parameter for the wrapper -/
def BreakeredClient.omits (c : BreakeredClient) (param : String) : Bool :=
  match c.paramRejections with
  | none => false
  | some t => t.shouldOmit c.name c.model param

def BreakeredClient.preflight (c : BreakeredClient) (req : LlmRequest F) : LlmRequest F :=
  paramNames.foldl (fun w param => if c.omits param then omitParamLlm w param else w) req

/-- the table once the parameters are recorded in it -/
def BreakeredClient.learn (c : BreakeredClient) (table : Option ParamRejectionsTable)
    (params : List String) : Option ParamRejectionsTable :=
  table.map fun t => params.foldl (fun t p => t.record c.name c.model p) t

structure Cascade where
  bodies : List Body
  result : Answer
  table : Option ParamRejectionsTable

/-- the retries behind a result: the next call is the number `k`, and `left` of them may follow -/
def BreakeredClient.retryLoop (h : Host F) (c : BreakeredClient) (answers : ℕ → ℕ → Answer)
    (k : ℕ) (working : LlmRequest F) (result : Answer) (table : Option ParamRejectionsTable) :
    ℕ → Cascade
  | 0 => ⟨[], result, table⟩
  | left + 1 =>
    if detected h result = [] then ⟨[], result, table⟩
    else
      let working' := (detected h result).foldl omitParamLlm working
      let r := c.inner.sendOnce h working' (answers k)
      let rest := c.retryLoop h answers (k + 1) working' r.result
        (c.learn table (detected h result)) left
      ⟨r.bodies ++ rest.bodies, rest.result, rest.table⟩

/-- `LlmClient::send` of the wrapper -/
def BreakeredClient.send (h : Host F) (c : BreakeredClient) (req : LlmRequest F)
    (answers : ℕ → ℕ → Answer) : Cascade :=
  let working := c.preflight req
  let r := c.inner.sendOnce h working (answers 0)
  let rest := c.retryLoop h answers 1 working r.result c.paramRejections paramNames.length
  ⟨r.bodies ++ rest.bodies, rest.result, rest.table⟩

/-! ## the digests -/

section
variable {D : Type*} (hash : Body → D)

def requestBodySha256 (h : Host F) (req : LlmRequest F) : D :=
  hash (toVec ((bodyFromRequest req).fields h))

def OpenAIClient.bodySha256 (h : Host F) (c : OpenAIClient) (req : LlmRequest F) : D :=
  match c.variant with
  | .chat => hash (toVec ((buildChatRequestBody h c.model req c.extraBody).fields h))
  | .responses => hash (toVec ((buildResponsesBody h req c.model false c.omitMaxTokens).fields h))

/-- `body_sha256` of an SDK client -/
def SdkClient.bodySha256 (h : Host F) (c : SdkClient) (req : LlmRequest F) : D :=
  match c with
  | .anthropic _ => requestBodySha256 hash h req
  | .openai o => o.bodySha256 hash h req

/-- `body_sha256` of the wrapper, whatever its inner client -/
def BreakeredClient.bodySha256 (h : Host F) (_ : BreakeredClient) (req : LlmRequest F) : D :=
  requestBodySha256 hash h req

/-- the dispatcher hands the table of the run to the client -/
def BreakeredClient.inject (c : BreakeredClient) (runTable : Option ParamRejectionsTable) :
    BreakeredClient :=
  match runTable with
  | none => c
  | some t => c.setParamRejections t

/-- one call of the dispatcher: the digest in the audit log, the bodies on the wire, and the client
with what it learned -/
structure CallRecord (D : Type*) where
  digest : D
  sent : List Body
  client : BreakeredClient

/-- the digest is taken before the table is handed over -/
def dispatch (h : Host F) (c : BreakeredClient) (runTable : Option ParamRejectionsTable)
    (req : LlmRequest F) (answers : ℕ → ℕ → Answer) : CallRecord D :=
  let digest := c.bodySha256 hash h req
  let client := c.inject runTable
  let out := client.send h req answers
  ⟨digest, out.bodies, { client with paramRejections := out.table }⟩

end

/-! ## the transport loop -/

/-- the answer that ends the transport loop -/
def lastAnswer (answer : ℕ → Answer) (attempt : ℕ) : ℕ → Answer
  | 0 => answer attempt
  | left + 1 =>
    match answer attempt with
    | .ok => .ok
    | .err e => if e.retryable then lastAnswer answer (attempt + 1) left else .err e

/-- every attempt posts the same body, and there is one at least -/
theorem postLoop_bodies (body : Body) (answer : ℕ → Answer) (P : Body → Prop) (attempt left : ℕ) :
    (∀ b ∈ (postLoop body answer attempt left).bodies, P b) ↔ P body := by
  induction left generalizing attempt with
  | zero => simp [postLoop]
  | succ left ih =>
    unfold postLoop
    split
    · simp
    · split
      · simp [ih]
      · simp

theorem postLoop_result (body : Body) (answer : ℕ → Answer) (attempt left : ℕ) :
    (postLoop body answer attempt left).result = lastAnswer answer attempt left := by
  induction left generalizing attempt with
  | zero => rfl
  | succ left ih =>
    unfold postLoop lastAnswer
    split
    · rfl
    · split
      · exact ih (attempt + 1)
      · rfl

/-! ## what an omission does to the body -/

/-- the request sets a parameter that can be omitted -/
def sets (req : LlmRequest F) (param : String) : Bool :=
  (param = "temperature" && req.temperature.isSome) || (param = "top_p" && req.topP.isSome)
    || (param = "max_tokens" && req.maxTokens.isSome)

theorem omitParams_eq (req : LlmRequest F) (params : List String) :
    params.foldl omitParamLlm req =
      { req with
        maxTokens := if "max_tokens" ∈ params then none else req.maxTokens
        temperature := if "temperature" ∈ params then none else req.temperature
        topP := if "top_p" ∈ params then none else req.topP } := by
  induction params generalizing req with
  | nil => simp
  | cons p ps ih =>
    rw [List.foldl_cons, ih]
    unfold omitParamLlm
    by_cases ht : p = "temperature"
    · subst ht
      simp
    by_cases hp : p = "top_p"
    · subst hp
      simp
    by_cases hm : p = "max_tokens"
    · subst hm
      simp
    simp [ht, hp, hm, Ne.symm ht, Ne.symm hp, Ne.symm hm]

theorem omitParams_id (req : LlmRequest F) (params : List String)
    (h : ∀ p ∈ params, sets req p = false) : params.foldl omitParamLlm req = req := by
  induction params with
  | nil => rfl
  | cons p ps ih =>
    have hp := h p List.mem_cons_self
    have hsame : omitParamLlm req p = req := by
      cases req
      unfold omitParamLlm
      unfold sets at hp
      split
      · simp_all
      · split
        · simp_all
        · split
          · simp_all
          · rfl
    rw [List.foldl_cons, hsame]
    exact ih fun q hq => h q (List.mem_cons_of_mem p hq)

theorem optField_drop {α : Type*} (key : String) (text : α → Text) (v : Option α) (a : Prop)
    [Decidable a] :
    (optField key text (if a then none else v)).Sublist (optField key text v) := by
  split
  · exact List.nil_sublist _
  · exact List.Sublist.refl _

theorem optField_length {α : Type*} (key : String) (text : α → Text) (v : Option α) :
    (optField key text v).length = v.isSome.toNat := by
  cases v <;> rfl

theorem isSome_drop {α : Type*} (v : Option α) (a : Prop) [Decidable a] :
    (if a then none else v : Option α).isSome.toNat ≤ v.isSome.toNat ∧
      ((if a then none else v : Option α).isSome.toNat = v.isSome.toNat ↔ (a → v = none)) := by
  by_cases ha : a
  · cases v <;> simp [ha]
  · simp [ha]

theorem drop_none {α : Type*} (v : Option α) (a : Prop) [Decidable a] (h : a → v = none) :
    (if a then none else v) = v := by
  split
  · exact (h ‹_›).symm
  · rfl

/-- the parameters that stay are a part of the fields, and all of them iff none that is set goes -/
theorem samplingFields_drop (h : Host F) (m : Option ℕ) (t p : Option F) (a b c : Prop)
    [Decidable a] [Decidable b] [Decidable c] :
    (samplingFields h (if a then none else m) (if b then none else t)
      (if c then none else p)).Sublist (samplingFields h m t p) ∧
    (samplingFields h (if a then none else m) (if b then none else t) (if c then none else p)
      = samplingFields h m t p ↔ (a → m = none) ∧ (b → t = none) ∧ (c → p = none)) := by
  refine ⟨((optField_drop _ _ m a).append (optField_drop _ _ t b)).append (optField_drop _ _ p c),
    fun heq => ?_, fun hkeep => ?_⟩
  · have hlen := congrArg List.length heq
    unfold samplingFields at hlen
    simp only [List.length_append, optField_length] at hlen
    obtain ⟨hm, hmeq⟩ := isSome_drop m a
    obtain ⟨ht, hteq⟩ := isSome_drop t b
    obtain ⟨hp, hpeq⟩ := isSome_drop p c
    exact ⟨hmeq.mp (by omega), hteq.mp (by omega), hpeq.mp (by omega)⟩
  · rw [drop_none m a hkeep.1, drop_none t b hkeep.2.1, drop_none p c hkeep.2.2]

/-- **An omission leaves the body as it is iff the request sets no omitted parameter.** -/
theorem body_omitParams (h : Host F) (req : LlmRequest F) (params : List String) :
    toVec ((bodyFromRequest (params.foldl omitParamLlm req)).fields h)
      = toVec ((bodyFromRequest req).fields h) ↔ ∀ p ∈ params, sets req p = false := by
  rw [toVec_inj, omitParams_eq]
  obtain ⟨hsub, heq⟩ := samplingFields_drop h req.maxTokens req.temperature req.topP
    ("max_tokens" ∈ params) ("temperature" ∈ params) ("top_p" ∈ params)
  unfold MessagesRequestBody.fields
  show object (_ :: (_ ++ _)) = object (_ :: (_ ++ _)) ↔ _
  refine (object_sublist (hsub.append (List.Sublist.refl _))).trans ?_
  rw [List.append_cancel_right_eq]
  refine heq.trans ⟨fun hkeep p hp => ?_, fun hset => ?_⟩
  · unfold sets
    by_cases ht : p = "temperature"
    · subst ht
      simp [hkeep.2.1 hp]
    by_cases hq : p = "top_p"
    · subst hq
      simp [hkeep.2.2 hp]
    by_cases hm : p = "max_tokens"
    · subst hm
      simp [hkeep.1 hp]
    simp [ht, hq, hm]
  · exact ⟨fun hp => by simpa [sets] using hset _ hp, fun hp => by simpa [sets] using hset _ hp,
      fun hp => by simpa [sets] using hset _ hp⟩

/-! ## the bodies of the SDKs tell the SDKs apart -/

theorem bodyFromRequest_second (h : Host F) (req : LlmRequest F) :
    ∃ k v fs, (bodyFromRequest req).fields h = ("model", quoted req.model) :: (k, v) :: fs ∧
      k ≠ "messages" ∧ k ≠ "instructions" := by
  show ∃ k v fs, _ :: (samplingFields h req.maxTokens req.temperature req.topP ++ _) = _ ∧ _
  unfold samplingFields
  cases req.maxTokens with
  | some n => exact ⟨"max_tokens", _, _, rfl, by decide, by decide⟩
  | none =>
    cases req.temperature with
    | some t => exact ⟨"temperature", _, _, rfl, by decide, by decide⟩
    | none =>
      cases req.topP with
      | some p => exact ⟨"top_p", _, _, rfl, by decide, by decide⟩
      | none => exact ⟨"system", _, _, rfl, by decide, by decide⟩

theorem chat_ne (h : Host F) (b : ChatRequest F) (req : LlmRequest F) :
    toVec ((bodyFromRequest req).fields h) ≠ toVec (b.fields h) := by
  intro heq
  obtain ⟨k, v, fs, hfields, hk, _⟩ := bodyFromRequest_second h req
  rw [toVec_inj, hfields] at heq
  exact hk (object_second heq)

theorem responses_ne (h : Host F) (b : ResponsesRequest F) (hi : b.instructions.isSome)
    (req : LlmRequest F) : toVec ((bodyFromRequest req).fields h) ≠ toVec (b.fields h) := by
  intro heq
  obtain ⟨k, v, fs, hfields, _, hk⟩ := bodyFromRequest_second h req
  obtain ⟨s, hs⟩ := Option.isSome_iff_exists.mp hi
  rw [toVec_inj, hfields] at heq
  unfold ResponsesRequest.fields at heq
  rw [hs] at heq
  exact hk (object_second heq)

/-- an OpenAI client posts no body of the Anthropic SDK, and posts one at least -/
theorem openai_bodies (h : Host F) (c : OpenAIClient) (req : LlmRequest F) (answer : ℕ → Answer) :
    ∃ body, (∀ r : LlmRequest F, toVec ((bodyFromRequest r).fields h) ≠ body) ∧
      ∀ P : Body → Prop, (∀ b ∈ (c.sendOnce h req answer).bodies, P b) ↔ P body := by
  unfold OpenAIClient.sendOnce
  cases c.variant with
  | chat => exact ⟨_, chat_ne h _, fun P => postLoop_bodies _ answer P _ _⟩
  | responses =>
    show ∃ body, _ ∧ ∀ P : Body → Prop, (∀ b ∈ (if req.stream then _ else _ : Sent).bodies, P b) ↔ _
    split
    · exact ⟨_, responses_ne h _ rfl, fun P => postLoop_bodies _ answer P _ _⟩
    · exact ⟨_, responses_ne h _ rfl, fun P => postLoop_bodies _ answer P _ _⟩

theorem wireMaxTokens_eq (c : OpenAIClient) (m : Option ℕ) :
    c.wireMaxTokens m = if c.omitMaxTokens then none else m := by
  unfold OpenAIClient.wireMaxTokens
  cases m with
  | none => simp
  | some n => simp

/-- **The OpenAI clients themselves hash what they post, unless they stream.** -/
theorem openai_bodySha256 {D : Type*} {hash : Body → D} (hinj : Function.Injective hash)
    (h : Host F) (c : OpenAIClient) (req : LlmRequest F) (answer : ℕ → Answer) :
    (∀ b ∈ (c.sendOnce h req answer).bodies, c.bodySha256 hash h req = hash b) ↔
      ¬ (c.variant = .responses ∧ req.stream = true) := by
  unfold OpenAIClient.sendOnce OpenAIClient.bodySha256
  cases c.variant with
  | chat =>
    refine (postLoop_bodies _ answer _ _ _).trans ?_
    simp
  | responses =>
    by_cases hs : req.stream = true
    · show (∀ b ∈ (if req.stream then _ else _ : Sent).bodies, _) ↔ _
      rw [if_pos hs]
      refine (postLoop_bodies _ answer _ _ _).trans (iff_of_false (fun heq => ?_) (by simp [hs]))
      have htext := toVec_inj.mp (hinj heq)
      have hstream : members [("stream", boolText false)] = members [("stream", boolText true)] :=
        object_append _ htext
      exact absurd hstream (by decide)
    · show (∀ b ∈ (if req.stream then _ else _ : Sent).bodies, _) ↔ _
      rw [if_neg hs]
      refine (postLoop_bodies _ answer _ _ _).trans (iff_of_true ?_ (by simp [hs]))
      rw [wireMaxTokens_eq]
      rfl

/-! ## the audit log -/

/-- what the upstream rejects in the calls from `k` on, up to the first that rejects nothing -/
def rejections (h : Host F) (answers : ℕ → ℕ → Answer) (k left : ℕ) : List String :=
  (((List.range' k left).map fun i => detected h (lastAnswer (answers i) 0 (maxRetries - 1))).takeWhile
    (· ≠ [])).flatten

theorem rejections_succ (h : Host F) (answers : ℕ → ℕ → Answer) (k left : ℕ) :
    rejections h answers k (left + 1) =
      if detected h (lastAnswer (answers k) 0 (maxRetries - 1)) = [] then []
      else detected h (lastAnswer (answers k) 0 (maxRetries - 1))
        ++ rejections h answers (k + 1) left := by
  unfold rejections
  rw [List.range'_succ, List.map_cons, List.takeWhile_cons]
  split <;> simp_all

theorem preflight_eq (c : BreakeredClient) (req : LlmRequest F) :
    c.preflight req = (paramNames.filter c.omits).foldl omitParamLlm req := by
  unfold BreakeredClient.preflight
  rw [List.foldl_filter]

section
variable (h : Host F) (c : BreakeredClient) {a : AnthropicClient} (hc : c.inner = .anthropic a)
  (answers : ℕ → ℕ → Answer)

include hc

theorem sendOnce_bodies (req : LlmRequest F) (answer : ℕ → Answer) (P : Body → Prop) :
    (∀ b ∈ (c.inner.sendOnce h req answer).bodies, P b) ↔
      P (toVec ((bodyFromRequest req).fields h)) := by
  rw [hc]
  exact postLoop_bodies _ answer P _ _

theorem sendOnce_result (req : LlmRequest F) (answer : ℕ → Answer) :
    (c.inner.sendOnce h req answer).result = lastAnswer answer 0 (maxRetries - 1) := by
  rw [hc]
  exact postLoop_result _ answer _ _

/-- the retries post the body of the request iff they drop none of its parameters -/
theorem retryLoop_bodies (k : ℕ) (req : LlmRequest F) (table : Option ParamRejectionsTable)
    (left : ℕ) :
    (∀ b ∈ (c.retryLoop h answers (k + 1) req (lastAnswer (answers k) 0 (maxRetries - 1)) table
        left).bodies, toVec ((bodyFromRequest req).fields h) = b) ↔
      ∀ p ∈ rejections h answers k left, sets req p = false := by
  induction left generalizing k req table with
  | zero => simp [BreakeredClient.retryLoop, rejections]
  | succ left ih =>
    rw [rejections_succ]
    unfold BreakeredClient.retryLoop
    by_cases hd : detected h (lastAnswer (answers k) 0 (maxRetries - 1)) = []
    · rw [if_pos hd, if_pos hd]
      simp
    rw [if_neg hd, if_neg hd]
    simp only [List.forall_mem_append]
    rw [sendOnce_bodies h c hc, sendOnce_result h c hc]
    -- the first body behind the omission decides; then the request is the old one
    refine Iff.trans (and_congr_right fun hbody => ?_)
      (and_congr_left' (eq_comm.trans (body_omitParams h req _)))
    have hkeep := (body_omitParams h req _).mp hbody.symm
    have hreq : (detected h (lastAnswer (answers k) 0 (maxRetries - 1))).foldl omitParamLlm req
        = req := omitParams_id req _ hkeep
    rw [hreq]
    exact ih (k + 1) req _

/-- behind the Anthropic client the cascade posts the body of the request iff it drops none of the
parameters that are set -/
theorem send_bodies (req : LlmRequest F) :
    (∀ b ∈ (c.send h req answers).bodies, toVec ((bodyFromRequest req).fields h) = b) ↔
      ∀ p ∈ paramNames.filter c.omits ++ rejections h answers 0 paramNames.length,
        sets req p = false := by
  unfold BreakeredClient.send
  simp only [List.forall_mem_append]
  rw [sendOnce_bodies h c hc, sendOnce_result h c hc, preflight_eq]
  refine Iff.trans (and_congr_right fun hbody => ?_)
    (and_congr_left' (eq_comm.trans (body_omitParams h req _)))
  rw [omitParams_id req _ ((body_omitParams h req _).mp hbody.symm)]
  exact retryLoop_bodies h c hc answers 0 req _ _

end

theorem inject_inner (c : BreakeredClient) (runTable : Option ParamRejectionsTable) :
    (c.inject runTable).inner = c.inner := by
  cases runTable <;> rfl

theorem detected_paramNames (h : Host F) (answer : Answer) :
    ∀ p ∈ detected h answer, p ∈ paramNames := by
  intro p hp
  unfold detected detectAllRejections at hp
  split at hp
  · cases hp
  · split at hp
    · split at hp
      · have hnames : ∀ q ∈ ["max_tokens", "temperature", "top_p"], q ∈ paramNames := by decide
        exact hnames p (List.mem_filter.mp hp).1
      · cases hp
    · cases hp

theorem rejections_paramNames (h : Host F) (answers : ℕ → ℕ → Answer) (k left : ℕ) :
    ∀ p ∈ rejections h answers k left, p ∈ paramNames := by
  intro p hp
  obtain ⟨ps, hps, hpin⟩ := List.mem_flatten.mp hp
  obtain ⟨i, _, rfl⟩ := List.mem_map.mp (List.takeWhile_subset _ hps)
  exact detected_paramNames h _ p hpin

section
variable {D : Type*} {hash : Body → D} (h : Host F) (c : BreakeredClient)
  (runTable : Option ParamRejectionsTable) (req : LlmRequest F) (answers : ℕ → ℕ → Answer)

/-- something is sent in every call -/
theorem dispatch_sends (hash : Body → D) :
    (dispatch hash h c runTable req answers).sent ≠ [] := by
  intro hnil
  have hfirst : ∀ b ∈ ((c.inject runTable).inner.sendOnce h ((c.inject runTable).preflight req)
      (answers 0)).bodies, False := by
    intro b hb
    have : b ∈ (dispatch hash h c runTable req answers).sent := List.mem_append_left _ hb
    rw [hnil] at this
    cases this
  cases hi : (c.inject runTable).inner with
  | anthropic a => exact (sendOnce_bodies h _ hi _ _ _).mp hfirst
  | openai o =>
    rw [hi] at hfirst
    obtain ⟨_, _, hall⟩ := openai_bodies h o ((c.inject runTable).preflight req) (answers 0)
    exact (hall _).mp hfirst

/-- **The digest in the audit log is that of the bodies on the wire iff the inner client is the
Anthropic one, and the cascade drops no parameter that the request sets.** -/
theorem dispatch_digest (hinj : Function.Injective hash) :
    (∀ b ∈ (dispatch hash h c runTable req answers).sent,
        (dispatch hash h c runTable req answers).digest = hash b) ↔
      (∃ a, c.inner = .anthropic a) ∧ ∀ p ∈ paramNames, sets req p = true →
        (c.inject runTable).omits p = false ∧ p ∉ rejections h answers 0 paramNames.length := by
  show (∀ b ∈ ((c.inject runTable).send h req answers).bodies,
    hash (toVec ((bodyFromRequest req).fields h)) = hash b) ↔ _
  simp only [hinj.eq_iff]
  rw [← inject_inner c runTable]
  cases hi : (c.inject runTable).inner with
  | openai o =>
    refine iff_of_false (fun hall => ?_) (fun hno => by cases hno.1.choose_spec)
    obtain ⟨body, hne, hbody⟩ := openai_bodies h o ((c.inject runTable).preflight req) (answers 0)
    refine hne req ((hbody _).mp fun b hb => hall b ?_)
    unfold BreakeredClient.send
    rw [hi]
    exact List.mem_append_left _ hb
  | anthropic a =>
    refine (send_bodies h _ hi answers req).trans ?_
    simp only [SdkClient.anthropic.injEq, exists_eq', true_and, List.forall_mem_append]
    constructor
    · intro hall p hp hset
      refine ⟨?_, fun hrej => ?_⟩
      · by_contra homit
        rw [hall.1 p (List.mem_filter.mpr ⟨hp, by simpa using homit⟩)] at hset
        cases hset
      · rw [hall.2 p hrej] at hset
        cases hset
    · intro hall
      refine ⟨fun p hp => ?_, fun p hp => ?_⟩
      · obtain ⟨hname, homit⟩ := List.mem_filter.mp hp
        by_contra hset
        rw [(hall p hname (by simpa using hset)).1] at homit
        cases homit
      · by_contra hset
        exact (hall p (rejections_paramNames h answers _ _ p hp) (by simpa using hset)).2 hp

end

/-! ## two calls -/

/-- `f32` values in tenths -/
def tenths : Host ℕ where
  f32Text n := natText (n / 10) ++ '.' :: natText (n % 10)
  f64Text bits := natText bits.toNat
  responseFormatOptOut := []
  captures _ := []

def proposal (model : String) : LlmRequest ℕ where
  role := .propose
  model := model
  system := "propose"
  user := "a cache"
  maxTokens := some 4096
  temperature := some 7
  topP := none
  topK := none
  responseSchema := none
  stream := false
  extraMessages := []
  attachments := []
  toolChoice := none

def wrapped (inner : SdkClient) : BreakeredClient := ⟨inner, none, none, none⟩

theorem dispatch_digest_anthropic :
    (dispatch id tenths (wrapped (.anthropic ⟨"minimax", "MiniMax-M3"⟩)) none
      (proposal "MiniMax-M3") fun _ _ => .ok).sent.Forall fun b =>
        (dispatch id tenths (wrapped (.anthropic ⟨"minimax", "MiniMax-M3"⟩)) none
          (proposal "MiniMax-M3") fun _ _ => .ok).digest = id b :=
  List.forall_iff_forall_mem.mpr ((dispatch_digest tenths _ none _ _ Function.injective_id).mpr
    ⟨⟨_, rfl⟩, fun p hp _ => ⟨rfl, by revert p; decide⟩⟩)

/-- the digest of a chat call is not that of the body it posts -/
theorem chat_digest_wrong :
    ¬ ∀ b ∈ (dispatch id tenths
          (wrapped (.openai ⟨.chat, "opencode", "kimi-k3", false, none⟩)) none
          (proposal "kimi-k3") fun _ _ => .ok).sent,
        (dispatch id tenths (wrapped (.openai ⟨.chat, "opencode", "kimi-k3", false, none⟩)) none
          (proposal "kimi-k3") fun _ _ => .ok).digest = id b := by
  decide +kernel

end Moagan.WireBody
