import LocalStack.Aws.Protocol.ServiceRouter

/-! When the choice of a service does not depend on the order of sets. Stage 2 loops over
the candidates, which matters only if lookups fail; the last line takes an arbitrary one
of those that are left. -/

namespace LocalStack.Aws.Protocol.ServiceRouter
open LocalStack.OrderedDict LocalStack.Sets LocalStack.Text

variable {parse_dict_header : Str → Dict Str (Option Str)} {services : ServiceCatalog}
  {request : Request} {indicators : _ServiceIndicators}
  {candidates remaining u : PySet ServiceModelIdentifier} {o o' : Order ServiceModelIdentifier}

/-! ## What is left for the last line -/

/-- The last line is reached, and picks one of `u`. -/
structure LeftOver (services : ServiceCatalog) (request : Request)
    (indicators : _ServiceIndicators) (remaining u : PySet ServiceModelIdentifier) : Prop where
  not_single : remaining.card ≠ 1
  undecided : laterStages services request indicators remaining = .ok u
  unsigned : truthy indicators.signing_name = none

/-- No two candidates fail differently in stage 2, and all that are left for the last
line name the same service model. -/
structure OrderFree (parse_dict_header : Str → Dict Str (Option Str)) (services : ServiceCatalog)
    (request : Request) : Prop where
  failures : ∀ indicators candidates,
    examined parse_dict_header services request = .ok (indicators, candidates) →
    ∀ x ∈ candidates, ∀ y ∈ candidates, ∀ e e', excluded services indicators x = .error e →
      excluded services indicators y = .error e' → e = e'
  leftOver : ∀ indicators candidates remaining u,
    examined parse_dict_header services request = .ok (indicators, candidates) →
    exclude .insertion (excluded services indicators) candidates = .ok remaining →
    LeftOver services request indicators remaining u →
    ∀ x ∈ u, ∀ y ∈ u, lookup services x = lookup services y

/-! ## One order -/

theorem determine_of_examined
    (h : examined parse_dict_header services request = .ok (indicators, candidates)) :
    determine_aws_service_model parse_dict_header o services request =
      afterExamination services request indicators o candidates := by
  rw [determine_aws_service_model, h]

theorem determine_of_failure
    (h : examined parse_dict_header services request = .ok (indicators, candidates))
    {x : ServiceModelIdentifier} (hx : x ∈ candidates) {e : Error}
    (he : excluded services indicators x = .error e) :
    determine_aws_service_model parse_dict_header (.first x) services request = .error e := by
  rw [determine_of_examined h, afterExamination, exclude_first hx he]

theorem afterExclusion_leftOver (h : LeftOver services request indicators remaining u) :
    afterExclusion services request indicators o remaining =
      fallback services indicators o u := by
  rw [afterExclusion, if_neg h.not_single, h.undecided]

theorem determine_of_leftOver
    (h : examined parse_dict_header services request = .ok (indicators, candidates))
    (hr : exclude .insertion (excluded services indicators) candidates = .ok remaining)
    (hl : LeftOver services request indicators remaining u) {x : ServiceModelIdentifier}
    (hx : x ∈ u) :
    determine_aws_service_model parse_dict_header (.first x) services request =
      lookup services x := by
  rw [determine_of_examined h, afterExamination, exclude_of_ok hr]
  dsimp only
  rw [afterExclusion_leftOver hl, fallback, hl.unsigned, pop_first hx]

/-! ## Two orders -/

theorem fallback_eq (h : truthy indicators.signing_name = none →
      ∀ x ∈ u, ∀ y ∈ u, lookup services x = lookup services y) :
    fallback services indicators o u = fallback services indicators o' u := by
  unfold fallback
  cases hs : truthy indicators.signing_name with
  | some signing_name => rfl
  | none =>
    cases hx : pop o u with
    | none =>
      have hy : pop o' u = none := pop_eq_none.mpr (pop_eq_none.mp hx)
      rw [hy]
    | some x =>
      cases hy : pop o' u with
      | none =>
        rw [pop_eq_none.mpr (pop_eq_none.mp hy)] at hx
        cases hx
      | some y => exact h hs x (mem_of_pop hx) y (mem_of_pop hy)

theorem afterExclusion_eq (h : ∀ u, LeftOver services request indicators remaining u →
      ∀ x ∈ u, ∀ y ∈ u, lookup services x = lookup services y) :
    afterExclusion services request indicators o remaining =
      afterExclusion services request indicators o' remaining := by
  unfold afterExclusion
  split
  · rename_i hcard
    rw [pop_of_card hcard]
  · rename_i hcard
    cases hl : laterStages services request indicators remaining with
    | error outcome => rfl
    | ok u => exact fallback_eq fun hs => h u ⟨hcard, hl, hs⟩

theorem determine_eq (h : OrderFree parse_dict_header services request) :
    determine_aws_service_model parse_dict_header o services request =
      determine_aws_service_model parse_dict_header o' services request := by
  cases hx : examined parse_dict_header services request with
  | error outcome => rw [determine_aws_service_model, determine_aws_service_model, hx]
  | ok p =>
    obtain ⟨indicators, candidates⟩ := p
    rw [determine_of_examined hx, determine_of_examined hx, afterExamination, afterExamination]
    cases hr : exclude o (excluded services indicators) candidates with
    | ok remaining =>
      rw [exclude_of_ok hr]
      exact afterExclusion_eq fun u =>
        h.leftOver indicators candidates remaining u hx (exclude_of_ok hr)
    | error e =>
      cases hr' : exclude o' (excluded services indicators) candidates with
      | ok remaining =>
        rw [exclude_of_ok hr'] at hr
        cases hr
      | error e' =>
        obtain ⟨x, hxs, he⟩ := exclude_error hr
        obtain ⟨y, hys, he'⟩ := exclude_error hr'
        rw [h.failures indicators candidates hx x hxs y hys e e' he he']

/-- **Order.** The service model is the same in every order of the sets exactly if the
candidates give no choice. -/
theorem determine_order_free_iff (parse_dict_header : Str → Dict Str (Option Str))
    (services : ServiceCatalog) (request : Request) :
    (∀ o o', determine_aws_service_model parse_dict_header o services request =
      determine_aws_service_model parse_dict_header o' services request) ↔
        OrderFree parse_dict_header services request := by
  constructor
  · intro hall
    constructor
    · intro indicators candidates hx x hxs y hys e e' he he'
      have := hall (.first x) (.first y)
      rw [determine_of_failure hx hxs he, determine_of_failure hx hys he'] at this
      exact Except.error.inj this
    · intro indicators candidates remaining u hx hr hl x hxu y hyu
      have := hall (.first x) (.first y)
      rwa [determine_of_leftOver hx hr hl hxu, determine_of_leftOver hx hr hl hyu] at this
  · intro h o o'
    exact determine_eq h

/-! ## An action of two services -/

def queryService (name version : String) : ServiceModel :=
  ⟨name.toList, "query".toList, version.toList, ["DescribeEvents".toList], none⟩

def queryIdentifier (name : String) : ServiceModelIdentifier :=
  ⟨name.toList, some "query".toList, none⟩

def sampleCatalog : ServiceCatalog where
  get := fun name _ =>
    if name = "elasticache".toList then .ok (queryService "elasticache" "2015-02-02")
    else if name = "redshift".toList then .ok (queryService "redshift" "2012-12-01")
    else .error (.UnknownServiceError name)
  target_prefix_index := []
  signing_name_index := [("elasticache".toList, [queryIdentifier "elasticache"]),
    ("redshift".toList, [queryIdentifier "redshift"])]
  operations_index := [("DescribeEvents".toList,
    [queryIdentifier "elasticache", queryIdentifier "redshift"])]
  endpoint_prefix_index := [("elasticache".toList, [queryIdentifier "elasticache"]),
    ("redshift".toList, [queryIdentifier "redshift"])]

/-- A form with an action and no version, without an authorization header. -/
def sampleRequest : Request where
  authorization := none
  x_amz_target := none
  smithy_protocol := none
  mimetype := "application/x-www-form-urlencoded".toList
  args := []
  host := "localhost:4566".toList
  path := "/".toList
  shallow := false
  values := some [("Action".toList, "DescribeEvents".toList)]

/-- The service depends on which of the two candidates comes first. -/
theorem describeEvents_undetermined :
    determine_aws_service_model (fun _ => []) (.first (queryIdentifier "elasticache"))
        sampleCatalog sampleRequest = .ok (some (queryService "elasticache" "2015-02-02")) ∧
      determine_aws_service_model (fun _ => []) (.first (queryIdentifier "redshift"))
        sampleCatalog sampleRequest = .ok (some (queryService "redshift" "2012-12-01")) ∧
      queryService "elasticache" "2015-02-02" ≠ queryService "redshift" "2012-12-01" := by
  constructor
  · decide +kernel
  · exact ⟨by decide +kernel, by decide⟩

end LocalStack.Aws.Protocol.ServiceRouter
