import Mathlib.Data.List.DropRight
import Mathlib.Data.List.Infix
import Moagan.Llm.WireBody

/-!
# From the endpoint to the request (`src/llm/client/dispatcher.rs`, `src/llm/client/openai.rs`)

* `pickSdk`                the SDK of an endpoint, by the suffix of its path
* `detectVariant`          the variant of an OpenAI client, by what its endpoint contains
* `OpenAIClient.url`       the URL that the client posts to
* `fromUrl_pickSdk`        the wire format of an endpoint is the one of its SDK
* `joinRoute_query`        the route is joined behind a query string
* `sdk_agrees_iff`         when the client is the one that `pickSdk` chose, and posts to its route
-/

namespace Moagan.Dispatcher

open WireBody CacheKey

abbrev Text := List Char

/-! ## endpoints -/

/-- `split('?').next()` -/
def pathOf (u : Text) : Text := u.takeWhile (· ≠ '?')

/-- the query string, with its question mark -/
def queryOf (u : Text) : Text := u.dropWhile (· ≠ '?')

/-- `trim_end_matches('/')` -/
def trimSlashes (u : Text) : Text := u.rdropWhile (· = '/')

def endsWith (u : Text) (s : String) : Bool := s.toList.isSuffixOf u

def contains (u : Text) (s : String) : Bool := decide (s.toList <:+: u)

def normalized (endpoint : Text) : Text := trimSlashes (pathOf endpoint)

/-! ## the dispatcher -/

inductive SdkKind where
  | anthropic
  | openAIChat
  | openAIResponses
  | mock
deriving DecidableEq, Repr

inductive WireFormatId where
  | anthropic
  | openAICompatible
  | openAI
deriving DecidableEq, Repr

/-- `Error::InvalidArgs` -/
structure InvalidArgs where
  message : Text
deriving DecidableEq, Repr

def WireFormatId.fromUrl (endpoint : Text) : Except InvalidArgs WireFormatId :=
  let n := normalized endpoint
  if endsWith n "/v1/messages" || endsWith n "/messages" then .ok .anthropic
  else if endsWith n "/v1/chat/completions" || endsWith n "/chat/completions" then
    .ok .openAICompatible
  else if endsWith n "/v1/responses" || endsWith n "/responses" then .ok .openAI
  else .error ⟨"endpoint URL '".toList ++ endpoint ++ ("' does not end in /v1/messages, " ++
    "/v1/chat/completions, or /v1/responses — WireFormatId::from_url cannot classify").toList⟩

def pickSdk (endpoint : Text) : Except InvalidArgs SdkKind :=
  let n := normalized endpoint
  if endsWith n "/v1/messages" || endsWith n "/messages" then .ok .anthropic
  else if endsWith n "/v1/chat/completions" || endsWith n "/chat/completions" then .ok .openAIChat
  else if endsWith n "/v1/responses" || endsWith n "/responses" then .ok .openAIResponses
  else if "mock://".toList.isPrefixOf endpoint then .ok .mock
  else .error ⟨"endpoint URL '".toList ++ endpoint ++ ("' does not end in /v1/messages, " ++
    "/v1/chat/completions, /v1/responses, or mock:// — dispatcher cannot pick an SDK").toList⟩

def SdkKind.wireFormat : SdkKind → Option WireFormatId
  | .anthropic => some .anthropic
  | .openAIChat => some .openAICompatible
  | .openAIResponses => some .openAI
  | .mock => none

/-- the variant that the doc of the kind names -/
def SdkKind.variant : SdkKind → Option OpenAIVariant
  | .openAIChat => some .chat
  | .openAIResponses => some .responses
  | _ => none

/-! ## the OpenAI client -/

structure ModelConfig where
  id : String
  endpoint : Option Text

/-- what the constructor reads of a section -/
structure ProviderConfig where
  models : List ModelConfig
  endpoint : Option Text
  omitMaxTokens : Bool
  extraBody : Option (List (String × Value))

structure OpenAIClient extends WireBody.OpenAIClient where
  endpoint : Text

def detectVariant (endpoint : Text) : Except InvalidArgs OpenAIVariant :=
  if contains endpoint "/chat/completions" then .ok .chat
  else if contains endpoint "/responses" then .ok .responses
  else .error ⟨"OpenAI endpoint '".toList ++ endpoint ++
    "' has no recognised wire-format suffix (/chat/completions, /responses)".toList⟩

/-- the endpoint of the first model, or of the section -/
def ProviderConfig.clientEndpoint (spec : ProviderConfig) : Text :=
  ((spec.models.head?.bind ModelConfig.endpoint).or spec.endpoint).getD "http://localhost".toList

def OpenAIClient.new (spec : ProviderConfig) : Except InvalidArgs OpenAIClient :=
  match detectVariant spec.clientEndpoint with
  | .error e => .error e
  | .ok variant => .ok {
      variant := variant
      name := (spec.models.head?.map ModelConfig.id).getD "openai"
      model := (spec.models.head?.map ModelConfig.id).getD ""
      omitMaxTokens := match variant with
        | .chat => false
        | .responses => spec.omitMaxTokens
      extraBody := spec.extraBody
      endpoint := spec.clientEndpoint }

/-- the common body of `chat_url` and `responses_url` -/
def joinRoute (route : String) (endpoint : Text) : Text :=
  let base := trimSlashes endpoint
  if endsWith base route then base
  else if endsWith base "/v1" then base ++ route.toList
  else base ++ ("/v1" ++ route).toList

def OpenAIClient.chatUrl (c : OpenAIClient) : Text := joinRoute "/chat/completions" c.endpoint

def OpenAIClient.responsesUrl (c : OpenAIClient) : Text := joinRoute "/responses" c.endpoint

/-- the URL of `send_with_safety_clamp` -/
def OpenAIClient.url (c : OpenAIClient) : Text :=
  match c.variant with
  | .chat => c.chatUrl
  | .responses => c.responsesUrl

/-- the client of a section; nothing is said here of the other two -/
inductive LlmClient where
  | anthropic
  | openai (c : OpenAIClient)
  | mock

def buildClient (cfg : ProviderConfig) : Except InvalidArgs LlmClient :=
  match pickSdk (cfg.endpoint.getD []) with
  | .error e => .error e
  | .ok .anthropic => .ok .anthropic
  | .ok .mock => .ok .mock
  | .ok .openAIChat => (OpenAIClient.new cfg).map .openai
  | .ok .openAIResponses => (OpenAIClient.new cfg).map .openai

/-! ## the registry -/

/-- the endpoint of a pair: the one of the model wins -/
def ProviderConfig.endpointOf (spec : ProviderConfig) (modelId : String) : Option Text :=
  ((spec.models.find? fun m => m.id = modelId).bind ModelConfig.endpoint).or spec.endpoint

/-- what the registry hands to the dispatcher for a pair -/
def ProviderConfig.probeSpec (spec : ProviderConfig) (modelId : String) (endpoint : Text) :
    ProviderConfig :=
  { spec with
    endpoint := some endpoint
    models := spec.models.filter fun m => m.id = modelId }

/-- the client of a pair has the endpoint that the dispatcher was asked about -/
theorem clientEndpoint_probeSpec {spec : ProviderConfig} {modelId : String} {endpoint : Text}
    (h : spec.endpointOf modelId = some endpoint) :
    (spec.probeSpec modelId endpoint).clientEndpoint = endpoint := by
  unfold ProviderConfig.endpointOf at h
  show (((spec.models.filter fun m => m.id = modelId).head?.bind ModelConfig.endpoint).or
    (some endpoint)).getD _ = endpoint
  rw [List.head?_filter]
  cases hown : (spec.models.find? fun m => m.id = modelId).bind ModelConfig.endpoint with
  | none => rfl
  | some own =>
    rw [hown] at h
    exact Option.some.inj h

/-! ## the path and the query -/

theorem path_query (u : Text) : pathOf u ++ queryOf u = u := List.takeWhile_append_dropWhile

theorem not_mem_path (u : Text) : '?' ∉ pathOf u := by
  intro h
  simpa using List.mem_takeWhile_imp h

/-- a query string begins with its question mark -/
theorem query_cases (u : Text) : queryOf u = [] ∨ ∃ q, queryOf u = '?' :: q := by
  induction u with
  | nil => exact Or.inl rfl
  | cons c u ih =>
    rw [queryOf, List.dropWhile_cons]
    by_cases h : c = '?'
    · rw [if_neg (by simpa using h), h]
      exact Or.inr ⟨u, rfl⟩
    · rw [if_pos (by simpa using h)]
      exact ih

section
variable {p q : Text} (hp : '?' ∉ p)
include hp

theorem before_query : ∀ c ∈ p, decide (c ≠ '?') = true := by
  intro c hc
  rw [decide_eq_true_eq]
  exact fun h => hp (h ▸ hc)

theorem pathOf_append : pathOf (p ++ '?' :: q) = p := by
  rw [pathOf, List.takeWhile_append_of_pos (before_query hp),
    List.takeWhile_cons_of_neg (by simp), List.append_nil]

theorem queryOf_append : queryOf (p ++ '?' :: q) = '?' :: q := by
  rw [queryOf, List.dropWhile_append_of_pos (before_query hp),
    List.dropWhile_cons_of_neg (by simp)]

theorem pathOf_self : pathOf p = p := List.takeWhile_eq_self_iff.mpr (before_query hp)

theorem queryOf_self : queryOf p = [] := List.dropWhile_eq_nil_iff.mpr (before_query hp)

end

/-! ## suffixes -/

/-- a text without the separator ends what is in front of it only with what is behind it -/
theorem suffix_behind {r p q : Text} (h : '?' ∉ r) : r <:+ p ++ '?' :: q ↔ r <:+ q := by
  have hq : q <:+ p ++ '?' :: q := (List.suffix_cons '?' q).trans (List.suffix_append p _)
  refine ⟨fun hr => ?_, fun hr => hr.trans hq⟩
  obtain hle | hle := List.suffix_or_suffix_of_suffix hr (List.suffix_append p ('?' :: q))
  · obtain rfl | hr := List.suffix_cons_iff.mp hle
    · exact absurd List.mem_cons_self h
    · exact hr
  · exact absurd (hle.subset List.mem_cons_self) h

theorem endsWith_iff {u : Text} {s : String} : endsWith u s = true ↔ s.toList <:+ u :=
  List.isSuffixOf_iff_suffix

/-- the slashes behind a question mark go, and the question mark stays -/
theorem trimSlashes_query (p q : Text) :
    trimSlashes (p ++ '?' :: q) = p ++ '?' :: trimSlashes q := by
  unfold trimSlashes List.rdropWhile
  rw [List.reverse_append, List.reverse_cons, List.append_assoc, List.dropWhile_append]
  cases h : (q.reverse.dropWhile fun c => decide (c = '/')).isEmpty with
  | true =>
    rw [if_pos rfl, List.isEmpty_iff.mp h]
    simp
  | false => simp

/-- no slash is trimmed from a text that ends with another character -/
theorem trimSlashes_of_suffix {r u : Text} {c : Char} (hc : c ≠ '/') (hr : [c] <:+ r)
    (h : r <:+ u) : trimSlashes u = u := by
  obtain ⟨v, rfl⟩ := hr.trans h
  exact List.rdropWhile_concat_neg _ _ _ (by simpa using hc)

/-! ## the SDK and the variant -/

def routeOf : OpenAIVariant → String
  | .chat => "/chat/completions"
  | .responses => "/responses"

theorem route_no_query (v : OpenAIVariant) : '?' ∉ (routeOf v).toList := by
  cases v with
  | chat => decide
  | responses => decide

/-- a text that ends in a route has no slash to trim -/
theorem trimSlashes_route {v : OpenAIVariant} {u : Text} (h : (routeOf v).toList <:+ u) :
    trimSlashes u = u := by
  have hs : ('s' : Char) ≠ '/' := by decide
  cases v with
  | chat => exact trimSlashes_of_suffix hs ⟨"/chat/completion".toList, rfl⟩ h
  | responses => exact trimSlashes_of_suffix hs ⟨"/response".toList, rfl⟩ h

theorem endsWith_longer {u : Text} {s t : String} (hst : s.toList <:+ t.toList) :
    (endsWith u t || endsWith u s) = endsWith u s := by
  cases h : endsWith u t with
  | false => rfl
  | true => rw [Bool.true_or, endsWith_iff.mpr (hst.trans (endsWith_iff.mp h))]

theorem v1_messages (u : Text) :
    (endsWith u "/v1/messages" || endsWith u "/messages") = endsWith u "/messages" :=
  endsWith_longer ⟨"/v1".toList, rfl⟩

theorem v1_chat (u : Text) : (endsWith u "/v1/chat/completions" || endsWith u "/chat/completions")
    = endsWith u "/chat/completions" := endsWith_longer ⟨"/v1".toList, rfl⟩

theorem v1_responses (u : Text) :
    (endsWith u "/v1/responses" || endsWith u "/responses") = endsWith u "/responses" :=
  endsWith_longer ⟨"/v1".toList, rfl⟩

/-- **The wire format of an endpoint is the one of its SDK.** -/
theorem fromUrl_pickSdk (endpoint : Text) (w : WireFormatId) :
    WireFormatId.fromUrl endpoint = .ok w ↔
      ∃ k, pickSdk endpoint = .ok k ∧ k.wireFormat = some w := by
  unfold WireFormatId.fromUrl pickSdk
  dsimp only
  split_ifs <;> simp [SdkKind.wireFormat]

/-- the path of an endpoint ends in the route of the variant that the dispatcher chose -/
theorem pickSdk_route {endpoint : Text} {k : SdkKind} {v : OpenAIVariant}
    (hk : pickSdk endpoint = .ok k) (hv : k.variant = some v) :
    (routeOf v).toList <:+ normalized endpoint := by
  unfold pickSdk at hk
  dsimp only at hk
  rw [v1_messages, v1_chat, v1_responses] at hk
  split_ifs at hk with h₁ h₂ h₃ h₄
  · rw [← Except.ok.inj hk] at hv
    cases hv
  · rw [← Except.ok.inj hk] at hv
    obtain rfl : OpenAIVariant.chat = v := Option.some.inj hv
    exact endsWith_iff.mp h₂
  · rw [← Except.ok.inj hk] at hv
    obtain rfl : OpenAIVariant.responses = v := Option.some.inj hv
    exact endsWith_iff.mp h₃
  · rw [← Except.ok.inj hk] at hv
    cases hv

theorem normalized_inside (endpoint : Text) : normalized endpoint <:+: endpoint :=
  (List.rdropWhile_prefix _ _).isInfix.trans (List.takeWhile_prefix _).isInfix

/-- the client takes the variant of the dispatcher, unless it finds the other route in front -/
theorem detectVariant_of_route {endpoint : Text} {v : OpenAIVariant}
    (h : (routeOf v).toList <:+ normalized endpoint) :
    detectVariant endpoint = .ok (if contains endpoint "/chat/completions" then .chat else v) := by
  have hin : (routeOf v).toList <:+: endpoint := h.isInfix.trans (normalized_inside endpoint)
  unfold detectVariant
  by_cases hc : contains endpoint "/chat/completions" = true
  · rw [if_pos hc, if_pos hc]
  · rw [if_neg hc, if_neg hc]
    cases v with
    | chat => exact absurd (decide_eq_true hin) hc
    | responses =>
      have hfound : contains endpoint "/responses" = true := decide_eq_true hin
      rw [if_pos hfound]

/-! ## the URL -/

/-- the text ends in the route, and what is in front of it does not -/
def EndsOnce (route u : Text) : Prop := ∃ front, u = front ++ route ∧ ¬ route <:+ front

theorem endsOnce_iff {route u : Text} (h : route <:+ u) :
    EndsOnce route u ↔ ¬ route ++ route <:+ u := by
  obtain ⟨front, rfl⟩ := h
  have hfront : EndsOnce route (front ++ route) ↔ ¬ route <:+ front := by
    refine ⟨fun ⟨front', he, hf⟩ => ?_, fun hf => ⟨front, rfl, hf⟩⟩
    rwa [List.append_cancel_right he]
  rw [hfront, not_iff_not]
  refine ⟨fun ⟨v, hv⟩ => ⟨v, ?_⟩, fun ⟨v, hv⟩ => ⟨v, ?_⟩⟩
  · rw [← hv, List.append_assoc]
  · rw [← List.append_assoc] at hv
    exact List.append_cancel_right hv

/-- without a query string the route is not joined a second time -/
theorem joinRoute_plain {route : String} {endpoint : Text} (hq : queryOf endpoint = [])
    (h : route.toList <:+ normalized endpoint) : joinRoute route endpoint = normalized endpoint := by
  have hself : pathOf endpoint = endpoint := by
    have := path_query endpoint
    rwa [hq, List.append_nil] at this
  unfold normalized at h ⊢
  rw [hself] at h ⊢
  unfold joinRoute
  dsimp only
  rw [if_pos (endsWith_iff.mpr h)]

/-- **With a query string the route is joined behind it**, unless the query string ends in it. -/
theorem joinRoute_query {v : OpenAIVariant} {p q : Text} :
    ∃ t, joinRoute (routeOf v) (p ++ '?' :: q) = p ++ '?' :: t ∧
      (t = q ↔ (routeOf v).toList <:+ q) := by
  unfold joinRoute
  dsimp only
  rw [trimSlashes_query]
  by_cases hroute : (routeOf v).toList <:+ trimSlashes q
  · rw [if_pos (endsWith_iff.mpr ((suffix_behind (route_no_query v)).mpr hroute))]
    refine ⟨trimSlashes q, rfl, fun he => he ▸ hroute, fun h => trimSlashes_route h⟩
  · have hq : ¬ (routeOf v).toList <:+ q := fun h => hroute (by rwa [trimSlashes_route h])
    have hno : ∀ w : Text, ¬ trimSlashes q ++ (w ++ (routeOf v).toList) = q := by
      intro w he
      apply hq
      rw [← he, ← List.append_assoc]
      exact List.suffix_append _ _
    rw [if_neg (fun h => hroute ((suffix_behind (route_no_query v)).mp (endsWith_iff.mp h)))]
    by_cases hv1 : endsWith (p ++ '?' :: trimSlashes q) "/v1" = true
    · rw [if_pos hv1]
      refine ⟨trimSlashes q ++ (routeOf v).toList, by simp, ?_⟩
      exact iff_of_false (hno []) hq
    · rw [if_neg hv1]
      refine ⟨trimSlashes q ++ ("/v1".toList ++ (routeOf v).toList), by simp, ?_⟩
      exact iff_of_false (hno _) hq

/-- the path ends in the route once, and the query string is the one of the endpoint -/
def UrlKept (v : OpenAIVariant) (endpoint url : Text) : Prop :=
  EndsOnce (routeOf v).toList (pathOf url) ∧ queryOf url = queryOf endpoint

/-- the endpoints that the client posts to as they are -/
def RoutesCleanly (v : OpenAIVariant) (endpoint : Text) : Prop :=
  ¬ (routeOf v).toList ++ (routeOf v).toList <:+ normalized endpoint ∧
    (queryOf endpoint = [] ∨
      pathOf endpoint = normalized endpoint ∧ (routeOf v).toList <:+ queryOf endpoint)

/-- **The URL keeps the path and the query of the endpoint iff there is no query, or the query ends
in the route itself.** -/
theorem urlKept_iff {v : OpenAIVariant} {endpoint : Text}
    (h : (routeOf v).toList <:+ normalized endpoint) :
    UrlKept v endpoint (joinRoute (routeOf v) endpoint) ↔ RoutesCleanly v endpoint := by
  unfold RoutesCleanly UrlKept
  obtain hq | ⟨q, hq⟩ := query_cases endpoint
  · -- no query string
    have hn : '?' ∉ normalized endpoint :=
      fun hc => not_mem_path endpoint ((List.rdropWhile_prefix _ _).subset hc)
    rw [joinRoute_plain hq h, pathOf_self hn, queryOf_self hn, hq, endsOnce_iff h]
    simp
  · have he : endpoint = pathOf endpoint ++ '?' :: q := by rw [← hq, path_query]
    obtain ⟨t, ht, hkept⟩ := joinRoute_query (v := v) (p := pathOf endpoint) (q := q)
    have hp := not_mem_path endpoint
    have hsuffix : (routeOf v).toList <:+ '?' :: q ↔ (routeOf v).toList <:+ q :=
      suffix_behind (p := []) (route_no_query v)
    rw [← he] at ht
    rw [ht, pathOf_append hp, queryOf_append hp, hq, hsuffix, ← hkept]
    constructor
    · intro ⟨honce, hquery⟩
      have hpath : (routeOf v).toList <:+ pathOf endpoint := by
        obtain ⟨front, hf, -⟩ := honce
        exact ⟨front, hf.symm⟩
      have hself : normalized endpoint = pathOf endpoint := trimSlashes_route hpath
      refine ⟨?_, Or.inr ⟨hself.symm, List.cons_injective hquery⟩⟩
      rw [hself]
      exact (endsOnce_iff hpath).mp honce
    · intro ⟨honce, hor⟩
      obtain hnil | ⟨hself, rfl⟩ := hor
      · cases hnil
      · rw [← hself] at honce h
        exact ⟨(endsOnce_iff h).mpr honce, rfl⟩

/-! ## end to end -/

section
variable {F : Type*} (h : Host F)

/-- the body of a variant -/
def variantBody (v : OpenAIVariant) (c : OpenAIClient) (req : LlmRequest F) : Body :=
  match v with
  | .chat => toVec ((buildChatRequestBody h c.model req c.extraBody).fields h)
  | .responses => toVec ((buildResponsesBody h req c.model req.stream c.omitMaxTokens).fields h)

/-- the client has the variant, posts its body alone, and posts it to its route -/
structure Serves (v : OpenAIVariant) (endpoint : Text) (c : OpenAIClient) : Prop where
  variant : c.variant = v
  bodies : ∀ (req : LlmRequest F) (answer : ℕ → Answer),
    ∀ b ∈ (c.sendOnce h req answer).bodies, b = variantBody h v c req
  url : UrlKept v endpoint c.url

/-- a client posts the body of its variant -/
theorem sendOnce_variant (c : OpenAIClient) (req : LlmRequest F) (answer : ℕ → Answer) :
    ∀ b ∈ (c.sendOnce h req answer).bodies, b = variantBody h c.variant c req := by
  unfold WireBody.OpenAIClient.sendOnce variantBody
  cases c.variant with
  | chat => exact (postLoop_bodies _ answer (· = _) _ _).mpr rfl
  | responses =>
    by_cases hs : req.stream = true
    · simp only [if_pos hs]
      apply (postLoop_bodies _ answer (· = _) _ _).mpr
      rw [hs]
    · simp only [if_neg hs]
      have hplain : req.stream = false := by simpa using hs
      apply (postLoop_bodies _ answer (· = _) _ _).mpr
      rw [wireMaxTokens_eq, hplain]
      rfl

/-- what makes the two classifiers and the URL agree -/
def Agreeing (v : OpenAIVariant) (endpoint : Text) : Prop :=
  (v = .responses → contains endpoint "/chat/completions" = false) ∧ RoutesCleanly v endpoint

theorem url_of_variant {c : OpenAIClient} {v : OpenAIVariant} (hv : c.variant = v) :
    c.url = joinRoute (routeOf v) c.endpoint := by
  unfold OpenAIClient.url
  rw [hv]
  cases v with
  | chat => rfl
  | responses => rfl

/-- what the dispatcher builds for a pair whose endpoint has the route of an OpenAI variant -/
theorem buildClient_pair {spec : ProviderConfig} {modelId : String} {endpoint : Text}
    (hpair : spec.endpointOf modelId = some endpoint) {k : SdkKind} {v : OpenAIVariant}
    (hk : pickSdk endpoint = .ok k) (hv : k.variant = some v) :
    ∃ c, buildClient (spec.probeSpec modelId endpoint) = .ok (.openai c) ∧ c.endpoint = endpoint ∧
      c.variant = if contains endpoint "/chat/completions" then .chat else v := by
  have hnew : ∃ c, OpenAIClient.new (spec.probeSpec modelId endpoint) = .ok c ∧
      c.endpoint = endpoint ∧
      c.variant = if contains endpoint "/chat/completions" then .chat else v := by
    unfold OpenAIClient.new
    rw [clientEndpoint_probeSpec hpair, detectVariant_of_route (pickSdk_route hk hv)]
    exact ⟨_, rfl, rfl, rfl⟩
  obtain ⟨c, hc, hrest⟩ := hnew
  refine ⟨c, ?_, hrest⟩
  have hasked : (spec.probeSpec modelId endpoint).endpoint.getD [] = endpoint := rfl
  unfold buildClient
  rw [hasked, hk]
  cases k with
  | anthropic => cases hv
  | mock => cases hv
  | openAIChat => rw [hc]; rfl
  | openAIResponses => rw [hc]; rfl

/-- **The client of an endpoint is the one that the dispatcher chose and posts to its route iff the
endpoint of a Responses client does not contain the other route, and the endpoint has no query string
but one that ends in the route.** -/
theorem sdk_agrees_iff {spec : ProviderConfig} {modelId : String} {endpoint : Text}
    (hpair : spec.endpointOf modelId = some endpoint) {k : SdkKind} {v : OpenAIVariant}
    (hk : pickSdk endpoint = .ok k) (hv : k.variant = some v) :
    (∃ c, buildClient (spec.probeSpec modelId endpoint) = .ok (.openai c) ∧ Serves h v endpoint c) ↔
      Agreeing v endpoint := by
  obtain ⟨c, hbuild, hendpoint, hvariant⟩ := buildClient_pair hpair hk hv
  have honly : (∃ c', buildClient (spec.probeSpec modelId endpoint) = .ok (.openai c') ∧
      Serves h v endpoint c') ↔ Serves h v endpoint c := by
    refine ⟨fun ⟨c', hc', hs⟩ => ?_, fun hs => ⟨c, hbuild, hs⟩⟩
    have heq : LlmClient.openai c = .openai c' := Except.ok.inj (hbuild.symm.trans hc')
    rwa [LlmClient.openai.inj heq]
  have hsame : c.variant = v ↔ (v = .responses → contains endpoint "/chat/completions" = false) := by
    rw [hvariant]
    cases v with
    | chat => simp
    | responses => cases contains endpoint "/chat/completions" <;> simp
  rw [honly, Agreeing, ← hsame, ← urlKept_iff (pickSdk_route hk hv)]
  constructor
  · intro hs
    have hurl := hs.url
    rw [url_of_variant hs.variant, hendpoint] at hurl
    exact ⟨hs.variant, hurl⟩
  · intro ⟨hcv, hurl⟩
    refine ⟨hcv, fun req answer b hb => ?_, ?_⟩
    · rw [← hcv]
      exact sendOnce_variant h c req answer b hb
    · rw [url_of_variant hcv, hendpoint]
      exact hurl

end

/-- a section with one model -/
def sectionAt (endpoint : String) : ProviderConfig where
  models := [⟨"m", none⟩]
  endpoint := some endpoint.toList
  omitMaxTokens := false
  extraBody := none

theorem sdk_agrees_plain :
    ∃ c, buildClient ((sectionAt "https://h/v1/responses/").probeSpec "m"
        "https://h/v1/responses/".toList) = .ok (.openai c) ∧
      Serves tenths .responses "https://h/v1/responses/".toList c := by
  have hpair : (sectionAt "https://h/v1/responses/").endpointOf "m"
      = some "https://h/v1/responses/".toList := rfl
  have hk : pickSdk "https://h/v1/responses/".toList = .ok .openAIResponses := by decide +kernel
  have hv : SdkKind.openAIResponses.variant = some .responses := rfl
  apply (sdk_agrees_iff tenths hpair hk hv).mpr
  refine ⟨fun _ => by decide +kernel, ?_⟩
  unfold RoutesCleanly
  decide +kernel

/-- the route is joined behind the query string -/
theorem query_joined :
    ¬ ∀ (spec : ProviderConfig) (modelId : String) (endpoint : Text) (k : SdkKind)
      (v : OpenAIVariant), spec.endpointOf modelId = some endpoint → pickSdk endpoint = .ok k →
      k.variant = some v →
        ∃ c, buildClient (spec.probeSpec modelId endpoint) = .ok (.openai c) ∧
          Serves tenths v endpoint c := by
  intro hall
  have hpair : (sectionAt "https://h/v1/chat/completions?x=1").endpointOf "m"
      = some "https://h/v1/chat/completions?x=1".toList := rfl
  have hk : pickSdk "https://h/v1/chat/completions?x=1".toList = .ok .openAIChat := by
    decide +kernel
  have hv : SdkKind.openAIChat.variant = some .chat := rfl
  have hagree := (sdk_agrees_iff tenths hpair hk hv).mp (hall _ _ _ _ _ hpair hk hv)
  exact absurd hagree.2.2 (by decide +kernel)

end Moagan.Dispatcher
