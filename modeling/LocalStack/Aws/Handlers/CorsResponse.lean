import LocalStack.Aws.Handlers.Cors
import LocalStack.Lib.HttpHeaders
import LocalStack.Lib.Lists
import LocalStack.Lib.RegexScan

/-! `CorsEnforcer` and `CorsResponseEnricher` of `aws/handlers/cors.py`: what a browser
is told about the request that it has asked for. -/

namespace LocalStack.Aws.Handlers.CorsResponse
open LocalStack.Text LocalStack.Regex LocalStack.HttpHeaders LocalStack.Lists
open LocalStack.Aws.Handlers.Cors (Settings nonEmpty is_cors_origin_allowed)

/-! ## Constants -/

def ACL_ALLOW_HEADERS : Str := "Access-Control-Allow-Headers".toList
def ACL_CREDENTIALS : Str := "Access-Control-Allow-Credentials".toList
def ACL_EXPOSE_HEADERS : Str := "Access-Control-Expose-Headers".toList
def ACL_METHODS : Str := "Access-Control-Allow-Methods".toList
def ACL_ORIGIN : Str := "Access-Control-Allow-Origin".toList
def ACL_REQUEST_HEADERS : Str := "Access-Control-Request-Headers".toList
def ACL_REQUEST_PRIVATE_NETWORK : Str := "Access-Control-Request-Private-Network".toList
def ACL_ALLOW_PRIVATE_NETWORK : Str := "Access-Control-Allow-Private-Network".toList

def CORS_ALLOWED_METHODS : List Str :=
  ["HEAD", "GET", "PUT", "POST", "DELETE", "OPTIONS", "PATCH"].map String.toList

def ALLOWED_CORS_RESPONSE_HEADERS : List Str :=
  [ACL_ORIGIN, ACL_METHODS, ACL_ALLOW_HEADERS, "Access-Control-Max-Age".toList, ACL_CREDENTIALS,
    ACL_EXPOSE_HEADERS]

/-- The configuration that the handlers read. -/
structure Config where
  DISABLE_CORS_CHECKS : Bool
  DISABLE_CORS_HEADERS : Bool
  DISABLE_PREFLIGHT_PROCESSING : Bool
  DISABLE_CUSTOM_CORS_S3 : Bool
  DISABLE_CUSTOM_CORS_APIGATEWAY : Bool
  EXTRA_CORS_ALLOWED_HEADERS : Str
  EXTRA_CORS_EXPOSE_HEADERS : Str

/-- The names of a comma-separated variable, or none where it is empty. -/
def extraHeaders (variable_ : Str) : List Str :=
  if variable_ = [] then [] else variable_.splitOn ','

def standardHeaders : List Str :=
  ["authorization", "cache-control", "content-length", "content-md5", "content-type", "etag",
    "location", "x-amz-acl", "x-amz-content-sha256", "x-amz-date", "x-amz-request-id",
    "x-amz-security-token", "x-amz-tagging", "x-amz-target", "x-amz-user-agent",
    "x-amz-version-id", "x-amzn-requestid", "x-localstack-target", "amz-sdk-invocation-id",
    "amz-sdk-request", "x-amz-log-type"].map String.toList

def CORS_ALLOWED_HEADERS (config : Config) : List Str :=
  standardHeaders ++ extraHeaders config.EXTRA_CORS_ALLOWED_HEADERS

def CORS_EXPOSE_HEADERS (config : Config) : List Str :=
  ["etag", "x-amz-version-id", "x-amz-log-result", "x-amz-executed-version",
    "x-amz-function-error"].map String.toList ++ extraHeaders config.EXTRA_CORS_EXPOSE_HEADERS

/-! ## The handlers -/

/-- What is read of a `RequestContext`. -/
structure Context where
  method : Str
  host : Str
  path : Str
  headers : Headers
  service_name : Option Str

structure Response where
  status_code : Nat
  headers : Headers

/-- How a handler leaves its chain. -/
inductive Chain
  | running
  | stopped
  | terminated
  deriving DecidableEq, Repr

def is_execute_api_call (context : Context) : Bool :=
  contains ".execute-api.".toList context.host ||
    ("/restapis/".toList.isPrefixOf context.path &&
      contains "/_user_request_".toList context.path) ||
    "/_aws/execute-api".toList.isPrefixOf context.path

def should_enforce_self_managed_service (config : Config) (context : Context) : Bool :=
  if !config.DISABLE_CUSTOM_CORS_S3 && decide (context.service_name = some "s3".toList) then false
  else if !config.DISABLE_CUSTOM_CORS_APIGATEWAY && is_execute_api_call context then false
  else true

/-- The two request headers that the origin check reads. -/
def originHeaders (headers : Headers) : Cors.Headers :=
  ⟨headers.get "origin".toList, headers.get "referer".toList⟩

def CorsEnforcer (settings : Settings) (urlparse : Str → Str × Str) (config : Config)
    (context : Context) (response : Response) : Chain × Response :=
  if !should_enforce_self_managed_service config context then (.running, response)
  else if !config.DISABLE_CORS_CHECKS &&
      !is_cors_origin_allowed settings urlparse (originHeaders context.headers) then
    (.terminated, { response with status_code := 403 })
  else if decide (context.method = "OPTIONS".toList) && !config.DISABLE_PREFLIGHT_PROCESSING then
    (.stopped, { response with status_code := 204 })
  else (.running, response)

/-- `[,\s]+`. -/
def separatorPattern : Pattern := .chars (fun c => c = ',' || whitespace c) 1 none

/-- `",".join(names)`. -/
def joined (names : List Str) : Str := [','].intercalate names

def setIfAbsent (headers : Headers) (name value : Str) : Headers :=
  if headers.contains name then headers else headers.set name value

/-- The origin that is allowed if none is set. -/
def allowedOrigin (config : Config) (request_headers : Headers) : Str :=
  match nonEmpty (request_headers.get "Origin".toList) with
  | some origin => if config.DISABLE_CORS_CHECKS then "*".toList else origin
  | none => "*".toList

/-- The list of allowed headers if none is set. -/
def allowedHeaders (config : Config) (response_headers : Headers) : Str :=
  let requested_headers := (response_headers.get ACL_REQUEST_HEADERS).getD []
  joined ((separatorPattern.split requested_headers ++ CORS_ALLOWED_HEADERS config).filter
    fun h => h ≠ [])

/-- Credentials are only allowed together with a concrete origin. -/
def allowCredentials (headers : Headers) : Headers :=
  if '*' ∈ (headers.get ACL_ORIGIN).getD [] then headers
  else headers.set ACL_CREDENTIALS "true".toList

def allowPrivateNetwork (request_headers headers : Headers) : Headers :=
  if request_headers.get ACL_REQUEST_PRIVATE_NETWORK = some "true".toList then
    setIfAbsent headers ACL_ALLOW_PRIVATE_NETWORK "true".toList
  else headers

def add_cors_headers (config : Config) (request_headers response_headers : Headers) : Headers :=
  let headers := setIfAbsent response_headers ACL_ORIGIN (allowedOrigin config request_headers)
  let headers := allowCredentials headers
  let headers := setIfAbsent headers ACL_METHODS (joined CORS_ALLOWED_METHODS)
  let headers := setIfAbsent headers ACL_ALLOW_HEADERS (allowedHeaders config headers)
  let headers := setIfAbsent headers ACL_EXPOSE_HEADERS (joined (CORS_EXPOSE_HEADERS config))
  let headers := allowPrivateNetwork request_headers headers
  headers.set "Vary".toList "Origin".toList

/-- Empty headers of a list of names are removed. -/
def removeEmpty (names : List Str) (headers : Headers) : Headers :=
  names.foldl (fun headers name =>
    if headers.get name = some [] then headers.remove name else headers) headers

def CorsResponseEnricher (config : Config) (context : Context) (response : Response) : Response :=
  let headers := removeEmpty ALLOWED_CORS_RESPONSE_HEADERS response.headers
  if !context.headers.contains "Origin".toList || config.DISABLE_CORS_HEADERS ||
      !should_enforce_self_managed_service config context then
    { response with headers := headers }
  else { response with headers := add_cors_headers config context.headers headers }

/-! ## What is authorised -/

/-- The names that the preflight request asks for. -/
def requestedHeaders (request_headers : Headers) : List Str :=
  (separatorPattern.split ((request_headers.get ACL_REQUEST_HEADERS).getD [])).filter
    fun h => h ≠ []

/-- A comma-separated list has an element of this name. -/
def Lists (value name : Str) : Prop := ∃ element ∈ value.splitOn ',', ikey element = ikey name

/-- The response authorises the origin and the headers that were asked for. -/
structure Authorises (config : Config) (origin : Str) (requested : List Str)
    (headers : Headers) : Prop where
  origin : headers.get ACL_ORIGIN = some origin
  credentials : headers.contains ACL_CREDENTIALS = true →
    '*' ∉ (headers.get ACL_ORIGIN).getD []
  listed : ∃ value, headers.get ACL_ALLOW_HEADERS = some value ∧
    (∀ element ∈ value.splitOn ',', element ≠ []) ∧
    (∀ name ∈ requested, Lists value name) ∧
    ∀ name ∈ CORS_ALLOWED_HEADERS config, name ≠ [] → Lists value name

def corsHeaders : List Str :=
  ALLOWED_CORS_RESPONSE_HEADERS ++
    [ACL_REQUEST_HEADERS, ACL_REQUEST_PRIVATE_NETWORK, ACL_ALLOW_PRIVATE_NETWORK]

/-- The configured names that are not empty. -/
def configured (config : Config) : List Str := (CORS_ALLOWED_HEADERS config).filter fun h => h ≠ []

variable {config : Config} {headers request_headers : Headers} {name name' value origin : Str}

theorem setIfAbsent_self (h : headers.get name = none) :
    (setIfAbsent headers name value).get name = some value := by
  simp [setIfAbsent, Headers.contains, h]

theorem setIfAbsent_ne (hne : ikey name' ≠ ikey name) :
    (setIfAbsent headers name value).get name' = headers.get name' := by
  unfold setIfAbsent
  split
  · rfl
  · exact Headers.get_set_ne headers value hne

theorem removeEmpty_of_absent {names : List Str} (h : ∀ name ∈ names, headers.get name = none) :
    removeEmpty names headers = headers := by
  induction names with
  | nil => rfl
  | cons name names ih =>
    have hname := h name (by simp)
    rw [removeEmpty, List.foldl_cons, hname, if_neg (by simp)]
    exact ih fun n hn => h n (by simp [hn])

theorem allowCredentials_ne (hne : ikey name ≠ ikey ACL_CREDENTIALS) :
    (allowCredentials headers).get name = headers.get name := by
  unfold allowCredentials
  split
  · rfl
  · exact Headers.get_set_ne headers _ hne

theorem allowCredentials_sent (hnone : headers.get ACL_CREDENTIALS = none)
    (h : (allowCredentials headers).contains ACL_CREDENTIALS = true) :
    '*' ∉ (headers.get ACL_ORIGIN).getD [] := by
  unfold allowCredentials at h
  split at h
  · rw [Headers.contains, hnone] at h
    exact absurd h Bool.false_ne_true
  · assumption

theorem allowPrivateNetwork_ne (hne : ikey name ≠ ikey ACL_ALLOW_PRIVATE_NETWORK) :
    (allowPrivateNetwork request_headers headers).get name = headers.get name := by
  unfold allowPrivateNetwork
  split
  · exact setIfAbsent_ne hne
  · rfl

/-- The last steps set other headers. -/
theorem get_lastSteps (h : name ∈ [ACL_ORIGIN, ACL_CREDENTIALS, ACL_ALLOW_HEADERS])
    (exposed vary : Str) : ((allowPrivateNetwork request_headers
      (setIfAbsent headers ACL_EXPOSE_HEADERS exposed)).set "Vary".toList vary).get name =
        headers.get name := by
  have hother : ∀ name ∈ [ACL_ORIGIN, ACL_CREDENTIALS, ACL_ALLOW_HEADERS],
      ikey name ≠ ikey ACL_EXPOSE_HEADERS ∧ ikey name ≠ ikey ACL_ALLOW_PRIVATE_NETWORK ∧
        ikey name ≠ ikey "Vary".toList := by decide
  obtain ⟨hexpose, hnetwork, hvary⟩ := hother name h
  rw [Headers.get_set_ne _ _ hvary, allowPrivateNetwork_ne hnetwork, setIfAbsent_ne hexpose]

/-- The steps for the methods and the credentials do not touch the other lists. -/
theorem get_middleSteps (hmethods : ikey name ≠ ikey ACL_METHODS)
    (hcredentials : ikey name ≠ ikey ACL_CREDENTIALS) (methods : Str) :
    (setIfAbsent (allowCredentials headers) ACL_METHODS methods).get name = headers.get name := by
  rw [setIfAbsent_ne hmethods, allowCredentials_ne hcredentials]

/-- The headers that matter, where none of them was there before. -/
theorem add_cors_headers_spec (h : ∀ name ∈ corsHeaders, headers.get name = none) :
    (add_cors_headers config request_headers headers).get ACL_ORIGIN =
        some (allowedOrigin config request_headers) ∧
      ((add_cors_headers config request_headers headers).contains ACL_CREDENTIALS = true →
        '*' ∉ allowedOrigin config request_headers) ∧
      (add_cors_headers config request_headers headers).get ACL_ALLOW_HEADERS =
        some (joined (configured config)) := by
  have horigin : headers.get ACL_ORIGIN = none := h _ (by decide)
  have hcredentials : headers.get ACL_CREDENTIALS = none := h _ (by decide)
  have hlist : headers.get ACL_ALLOW_HEADERS = none := h _ (by decide)
  have hrequest : headers.get ACL_REQUEST_HEADERS = none := h _ (by decide)
  simp only [add_cors_headers]
  refine ⟨?_, ?_, ?_⟩
  · rw [get_lastSteps (by simp), setIfAbsent_ne (by decide),
      get_middleSteps (by decide) (by decide), setIfAbsent_self horigin]
  · rw [Headers.contains, get_lastSteps (by simp), setIfAbsent_ne (by decide),
      setIfAbsent_ne (by decide)]
    intro hsent
    have hstar := allowCredentials_sent (by rw [setIfAbsent_ne (by decide), hcredentials]) hsent
    rwa [setIfAbsent_self horigin] at hstar
  · have habsent : ∀ name, ikey name ≠ ikey ACL_METHODS → ikey name ≠ ikey ACL_CREDENTIALS →
        ikey name ≠ ikey ACL_ORIGIN → headers.get name = none →
        (setIfAbsent (allowCredentials (setIfAbsent headers ACL_ORIGIN
          (allowedOrigin config request_headers))) ACL_METHODS (joined CORS_ALLOWED_METHODS)).get
            name = none := by
      intro name hmethods hcredentials horigin hnone
      rw [get_middleSteps hmethods hcredentials, setIfAbsent_ne horigin, hnone]
    rw [get_lastSteps (by simp), setIfAbsent_self, allowedHeaders,
      habsent ACL_REQUEST_HEADERS (by decide) (by decide) (by decide) hrequest]
    · rfl
    · exact habsent ACL_ALLOW_HEADERS (by decide) (by decide) (by decide) hlist

theorem splitOn_joined_configured (config : Config) :
    (joined (configured config)).splitOn ',' = configured config := by
  refine List.splitOn_intercalate ',' ?_ ?_
  · intro name hname
    rcases List.mem_append.mp (List.mem_filter.mp hname).1 with hbase | hextra
    · have hstandard : ∀ name ∈ standardHeaders, ',' ∉ name := by decide
      exact hstandard name hbase
    · unfold extraHeaders at hextra
      split at hextra
      · simp at hextra
      · exact not_mem_of_mem_splitOn hextra
  · exact List.ne_nil_of_mem (a := "etag".toList)
      (List.mem_filter.mpr ⟨List.mem_append_left _ (by decide), by decide⟩)

theorem lists_configured {config : Config} {name : Str} :
    Lists (joined (configured config)) name ↔
      ∃ allowed ∈ configured config, ikey allowed = ikey name := by
  rw [Lists, splitOn_joined_configured]

theorem removeEmpty_of_clean (h : ∀ name ∈ corsHeaders, headers.get name = none) :
    removeEmpty ALLOWED_CORS_RESPONSE_HEADERS headers = headers :=
  removeEmpty_of_absent fun name hname => h name (List.mem_append_left _ hname)

section Handlers
variable {settings : Settings} {urlparse : Str → Str × Str} {context : Context}
  {response : Response}
  (hallowed : is_cors_origin_allowed settings urlparse (originHeaders context.headers) = true)
include hallowed

/-- A request with an allowed origin passes, and no header is set yet. -/
theorem enforcer_passes :
    (CorsEnforcer settings urlparse config context response).1 ≠ .terminated ∧
      (CorsEnforcer settings urlparse config context response).2.headers = response.headers := by
  unfold CorsEnforcer
  simp only [hallowed, Bool.not_true, Bool.and_false, Bool.false_eq_true, if_false]
  split
  · exact ⟨by simp, rfl⟩
  · split
    · exact ⟨by simp, rfl⟩
    · exact ⟨by simp, rfl⟩

theorem enriched_headers (horigin : (context.headers.get "Origin".toList).isSome = true)
    (hheaders : config.DISABLE_CORS_HEADERS = false)
    (henforce : should_enforce_self_managed_service config context = true)
    (hresponse : ∀ name ∈ corsHeaders, response.headers.get name = none) :
    (CorsResponseEnricher config context
      (CorsEnforcer settings urlparse config context response).2).headers =
        add_cors_headers config context.headers response.headers := by
  have hpass := @enforcer_passes config settings urlparse context response hallowed
  have hclean := removeEmpty_of_clean hresponse
  simp only [CorsResponseEnricher, Headers.contains, hpass.2, hclean, henforce, horigin, hheaders,
    Bool.not_true, Bool.or_false, Bool.false_eq_true, if_false]

end Handlers

/-- **A preflight response authorises what was asked exactly when only configured headers
were asked for.** For a request with an allowed origin, which the enforcer lets pass,
with checks and headers enabled and no CORS headers on the response yet. -/
theorem authorises_iff_configured {settings : Settings} {urlparse : Str → Str × Str}
    {context : Context} {response : Response}
    (horigin : context.headers.get "Origin".toList = some origin) (hne : origin ≠ [])
    (hallowed : is_cors_origin_allowed settings urlparse (originHeaders context.headers) = true)
    (hchecks : config.DISABLE_CORS_CHECKS = false) (hheaders : config.DISABLE_CORS_HEADERS = false)
    (hresponse : ∀ name ∈ corsHeaders, response.headers.get name = none) :
    (CorsEnforcer settings urlparse config context response).1 ≠ .terminated ∧
      (Authorises config origin (requestedHeaders context.headers)
          (CorsResponseEnricher config context
            (CorsEnforcer settings urlparse config context response).2).headers ↔
        should_enforce_self_managed_service config context = true ∧
          ∀ name ∈ requestedHeaders context.headers,
            ∃ allowed ∈ configured config, ikey allowed = ikey name) := by
  have hpass := @enforcer_passes config settings urlparse context response hallowed
  have hclean := removeEmpty_of_clean hresponse
  refine ⟨hpass.1, ?_⟩
  cases henforce : should_enforce_self_managed_service config context with
  | false =>
    simp only [CorsResponseEnricher, hpass.2, hclean, henforce, Bool.not_false, Bool.or_true,
      if_true, Bool.false_eq_true, false_and, iff_false]
    intro hauthorises
    have hnone := hresponse ACL_ORIGIN (by decide)
    rw [hauthorises.origin] at hnone
    exact Option.some_ne_none _ hnone
  | true =>
    obtain ⟨ho, hc, hl⟩ := @add_cors_headers_spec config response.headers context.headers hresponse
    have hvalue : allowedOrigin config context.headers = origin := by
      rw [allowedOrigin, horigin, nonEmpty, Option.filter_some]
      simp [hne, hchecks]
    rw [hvalue] at ho hc
    rw [enriched_headers hallowed (by rw [horigin]; rfl) hheaders henforce hresponse,
      and_iff_right rfl]
    constructor
    · rintro ⟨-, -, value, hget, -, hrequested, -⟩ name hname
      obtain rfl := Option.some.inj (hl.symm.trans hget)
      exact lists_configured.mp (hrequested name hname)
    · intro hrequested
      refine ⟨ho, fun hsent => by rw [ho]; exact hc hsent, _, hl, ?_, ?_, ?_⟩
      · intro element helement
        rw [splitOn_joined_configured] at helement
        exact of_decide_eq_true (List.mem_filter.mp helement).2
      · exact fun name hname => lists_configured.mpr (hrequested name hname)
      · intro name hname hname'
        exact lists_configured.mpr
          ⟨name, List.mem_filter.mpr ⟨hname, decide_eq_true hname'⟩, rfl⟩

/-- Nothing is disabled and nothing extra configured. -/
def defaults : Config := ⟨false, false, false, false, false, [], []⟩

/-- A preflight request that asks for a list of headers. -/
def preflight (requested : Str) : Context where
  method := "OPTIONS".toList
  host := "localhost:4566".toList
  path := "/".toList
  headers := [("Origin".toList, "https://app.localstack.cloud".toList),
    (ACL_REQUEST_HEADERS, requested)]
  service_name := none

/-- The response to a preflight request, on the way out. -/
def preflightResponse (requested : Str) : Response :=
  CorsResponseEnricher defaults (preflight requested)
    (CorsEnforcer Cors.localSettings (fun _ => ([], [])) defaults (preflight requested) ⟨200, []⟩).2

theorem configured_headers_authorised :
    Authorises defaults "https://app.localstack.cloud".toList
      (requestedHeaders (preflight "content-type, X-Amz-Date".toList).headers)
      (preflightResponse "content-type, X-Amz-Date".toList).headers :=
  (authorises_iff_configured (by decide) (by decide) (by decide) rfl rfl
      fun _ _ => rfl).2.mpr
    (by decide)

/-- The list of a response that has none is read instead of the request's. -/
theorem custom_header_not_authorised :
    is_cors_origin_allowed Cors.localSettings (fun _ => ([], []))
        (originHeaders (preflight "x-custom".toList).headers) = true ∧
      requestedHeaders (preflight "x-custom".toList).headers = ["x-custom".toList] ∧
      ¬ Authorises defaults "https://app.localstack.cloud".toList ["x-custom".toList]
        (preflightResponse "x-custom".toList).headers := by
  have hallowed : is_cors_origin_allowed Cors.localSettings (fun _ => ([], []))
      (originHeaders (preflight "x-custom".toList).headers) = true := by decide
  refine ⟨hallowed, by decide, ?_⟩
  rintro ⟨-, -, value, hget, -, hrequested, -⟩
  obtain ⟨-, -, hvalue⟩ := @add_cors_headers_spec defaults [] (preflight "x-custom".toList).headers
    fun _ _ => rfl
  rw [preflightResponse, enriched_headers hallowed rfl rfl (by decide) fun _ _ => rfl] at hget
  obtain rfl := Option.some.inj (hvalue.symm.trans hget)
  obtain ⟨allowed, hallowed, hkey⟩ :=
    lists_configured.mp (hrequested _ (List.mem_singleton_self _))
  have hnone : ∀ allowed ∈ configured defaults, ikey allowed ≠ ikey "x-custom".toList := by
    decide
  exact hnone allowed hallowed hkey

end LocalStack.Aws.Handlers.CorsResponse
