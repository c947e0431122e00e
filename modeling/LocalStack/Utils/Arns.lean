import LocalStack.Aws.Handlers.Region

/-! The ARN builders of `utils/aws/arns.py` that format one resource name with
`_resource_arn`. -/

namespace LocalStack.Utils.Arns
open LocalStack.Aws.Handlers.Region LocalStack.Fields LocalStack.Text

/-! ## The builders -/

/-- The arguments between the pieces of a pattern. -/
def fill : List Str → List Str → Option Str
  | [last], [] => some last
  | piece :: pieces, arg :: args => (fill pieces args).map fun text => piece ++ (arg ++ text)
  | _, _ => none

/-- `pattern % args`; the patterns have no other conversion than `%s`. -/
def percent (pattern : Str) (args : List Str) : Option Str :=
  fill (split "%s".toList pattern) args

/-- `_resource_arn`. -/
def resource_arn (name pattern account_id region_name : Str) (allow_colons : Bool) : Option Str :=
  if ':' ∈ name ∧ allow_colons = false then some name
  else if (split "%s".toList pattern).length = 4 then
    percent pattern [get_partition (some region_name), account_id, name]
  else percent pattern [get_partition (some region_name), region_name, account_id, name]

/-- A name that is put into a pattern. -/
def named (pattern name account_id region_name : Str) : Option Str :=
  resource_arn name pattern account_id region_name false

def secretsmanager_secret_arn (secret_id account_id region_name random_suffix : Str) : Option Str :=
  if ':' ∈ secret_id then some secret_id
  else
    let arn := named "arn:%s:secretsmanager:%s:%s:secret:%s".toList secret_id account_id region_name
    if random_suffix = [] then arn else arn.map (· ++ '-' :: random_suffix)

def dynamodb_table_arn (table_name account_id region_name : Str) : Option Str :=
  let table_name := (split ":table/".toList table_name).getLastD []
  named "arn:%s:dynamodb:%s:%s:table/%s".toList table_name account_id region_name

def cloudwatch_dashboard_arn : Str → Str → Str → Option Str :=
  named "arn:%s:cloudwatch::%s:dashboard/%s".toList

def log_group_arn : Str → Str → Str → Option Str := named "arn:%s:logs:%s:%s:log-group:%s".toList

def events_archive_arn : Str → Str → Str → Option Str :=
  named "arn:%s:events:%s:%s:archive/%s".toList

def event_bus_arn : Str → Str → Str → Option Str := named "arn:%s:events:%s:%s:event-bus/%s".toList

def events_replay_arn : Str → Str → Str → Option Str := named "arn:%s:events:%s:%s:replay/%s".toList

def events_rule_arn (rule_name account_id region_name event_bus_name : Str) : Option Str :=
  let rule_name :=
    if event_bus_name ≠ "default".toList then event_bus_name ++ '/' :: rule_name else rule_name
  named "arn:%s:events:%s:%s:rule/%s".toList rule_name account_id region_name

def lambda_code_signing_arn : Str → Str → Str → Option Str :=
  named "arn:%s:lambda:%s:%s:code-signing-config:%s".toList

def lambda_event_source_mapping_arn : Str → Str → Str → Option Str :=
  named "arn:%s:lambda:%s:%s:event-source-mapping:%s".toList

def capacity_provider_arn : Str → Str → Str → Option Str :=
  named "arn:%s:lambda:%s:%s:capacity-provider:%s".toList

def stepfunctions_state_machine_arn : Str → Str → Str → Option Str :=
  named "arn:%s:states:%s:%s:stateMachine:%s".toList

def stepfunctions_activity_arn : Str → Str → Str → Option Str :=
  named "arn:%s:states:%s:%s:activity:%s".toList

def cognito_user_pool_arn : Str → Str → Str → Option Str :=
  named "arn:%s:cognito-idp:%s:%s:userpool/%s".toList

def kinesis_stream_arn : Str → Str → Str → Option Str :=
  named "arn:%s:kinesis:%s:%s:stream/%s".toList

def elasticsearch_domain_arn : Str → Str → Str → Option Str :=
  named "arn:%s:es:%s:%s:domain/%s".toList

def firehose_stream_arn : Str → Str → Str → Option Str :=
  named "arn:%s:firehose:%s:%s:deliverystream/%s".toList

def kms_key_arn : Str → Str → Str → Option Str := named "arn:%s:kms:%s:%s:key/%s".toList

def kms_alias_arn (alias_name account_id region_name : Str) : Option Str :=
  let alias_name :=
    if "alias/".toList.isPrefixOf alias_name = true then alias_name
    else "alias/".toList ++ alias_name
  named "arn:%s:kms:%s:%s:%s".toList alias_name account_id region_name

def ssm_parameter_arn (param_name account_id region_name : Str) : Option Str :=
  let param_name := param_name.dropWhile (· = '/')
  named "arn:%s:ssm:%s:%s:parameter/%s".toList param_name account_id region_name

def ecr_repository_arn : Str → Str → Str → Option Str :=
  named "arn:%s:ecr:%s:%s:repository/%s".toList

def route53_resolver_firewall_rule_group_arn : Str → Str → Str → Option Str :=
  named "arn:%s:route53resolver:%s:%s:firewall-rule-group/%s".toList

def route53_resolver_firewall_domain_list_arn : Str → Str → Str → Option Str :=
  named "arn:%s:route53resolver:%s:%s:firewall-domain-list/%s".toList

def route53_resolver_firewall_rule_group_associations_arn : Str → Str → Str → Option Str :=
  named "arn:%s:route53resolver:%s:%s:firewall-rule-group-association/%s".toList

def route53_resolver_query_log_config_arn : Str → Str → Str → Option Str :=
  named "arn:%s:route53resolver:%s:%s:resolver-query-log-config/%s".toList

def ses_identity_arn : Str → Str → Str → Option Str := named "arn:%s:ses:%s:%s:identity/%s".toList

/-! ## The builders of one name -/

/-- The builders with one resource name. -/
inductive Builder
  | secretsmanager_secret (random_suffix : Str)
  | dynamodb_table
  | events_rule (event_bus_name : Str)
  | cloudwatch_dashboard
  | log_group
  | events_archive
  | event_bus
  | events_replay
  | lambda_code_signing
  | lambda_event_source_mapping
  | capacity_provider
  | stepfunctions_state_machine
  | stepfunctions_activity
  | cognito_user_pool
  | kinesis_stream
  | elasticsearch_domain
  | firehose_stream
  | kms_key
  | kms_alias
  | ssm_parameter
  | ecr_repository
  | route53_resolver_firewall_rule_group
  | route53_resolver_firewall_domain_list
  | route53_resolver_firewall_rule_group_associations
  | route53_resolver_query_log_config
  | ses_identity

namespace Builder

/-- The name, the account and the region are the arguments. -/
def build : Builder → Str → Str → Str → Option Str
  | secretsmanager_secret random_suffix => fun name account_id region_name =>
    secretsmanager_secret_arn name account_id region_name random_suffix
  | events_rule event_bus_name => fun name account_id region_name =>
    events_rule_arn name account_id region_name event_bus_name
  | dynamodb_table => dynamodb_table_arn
  | cloudwatch_dashboard => cloudwatch_dashboard_arn
  | log_group => log_group_arn
  | events_archive => events_archive_arn
  | event_bus => event_bus_arn
  | events_replay => events_replay_arn
  | lambda_code_signing => lambda_code_signing_arn
  | lambda_event_source_mapping => lambda_event_source_mapping_arn
  | capacity_provider => capacity_provider_arn
  | stepfunctions_state_machine => stepfunctions_state_machine_arn
  | stepfunctions_activity => stepfunctions_activity_arn
  | cognito_user_pool => cognito_user_pool_arn
  | kinesis_stream => kinesis_stream_arn
  | elasticsearch_domain => elasticsearch_domain_arn
  | firehose_stream => firehose_stream_arn
  | kms_key => kms_key_arn
  | kms_alias => kms_alias_arn
  | ssm_parameter => ssm_parameter_arn
  | ecr_repository => ecr_repository_arn
  | route53_resolver_firewall_rule_group => route53_resolver_firewall_rule_group_arn
  | route53_resolver_firewall_domain_list => route53_resolver_firewall_domain_list_arn
  | route53_resolver_firewall_rule_group_associations =>
    route53_resolver_firewall_rule_group_associations_arn
  | route53_resolver_query_log_config => route53_resolver_query_log_config_arn
  | ses_identity => ses_identity_arn

/-- The service in the ARN. -/
def service : Builder → Str
  | secretsmanager_secret _ => "secretsmanager".toList
  | dynamodb_table => "dynamodb".toList
  | events_rule _ | events_archive | event_bus | events_replay => "events".toList
  | cloudwatch_dashboard => "cloudwatch".toList
  | log_group => "logs".toList
  | lambda_code_signing | lambda_event_source_mapping | capacity_provider => "lambda".toList
  | stepfunctions_state_machine | stepfunctions_activity => "states".toList
  | cognito_user_pool => "cognito-idp".toList
  | kinesis_stream => "kinesis".toList
  | elasticsearch_domain => "es".toList
  | firehose_stream => "firehose".toList
  | kms_key | kms_alias => "kms".toList
  | ssm_parameter => "ssm".toList
  | ecr_repository => "ecr".toList
  | route53_resolver_firewall_rule_group
  | route53_resolver_firewall_domain_list
  | route53_resolver_firewall_rule_group_associations
  | route53_resolver_query_log_config => "route53resolver".toList
  | ses_identity => "ses".toList

/-- What stands before the name. -/
def kind : Builder → Str
  | secretsmanager_secret _ => "secret:".toList
  | dynamodb_table => "table/".toList
  | events_rule _ => "rule/".toList
  | cloudwatch_dashboard => "dashboard/".toList
  | log_group => "log-group:".toList
  | events_archive => "archive/".toList
  | event_bus => "event-bus/".toList
  | events_replay => "replay/".toList
  | lambda_code_signing => "code-signing-config:".toList
  | lambda_event_source_mapping => "event-source-mapping:".toList
  | capacity_provider => "capacity-provider:".toList
  | stepfunctions_state_machine => "stateMachine:".toList
  | stepfunctions_activity => "activity:".toList
  | cognito_user_pool => "userpool/".toList
  | kinesis_stream => "stream/".toList
  | elasticsearch_domain => "domain/".toList
  | firehose_stream => "deliverystream/".toList
  | kms_key => "key/".toList
  | kms_alias => []
  | ssm_parameter => "parameter/".toList
  | ecr_repository => "repository/".toList
  | route53_resolver_firewall_rule_group => "firewall-rule-group/".toList
  | route53_resolver_firewall_domain_list => "firewall-domain-list/".toList
  | route53_resolver_firewall_rule_group_associations => "firewall-rule-group-association/".toList
  | route53_resolver_query_log_config => "resolver-query-log-config/".toList
  | ses_identity => "identity/".toList

/-- What becomes of the name. -/
def written : Builder → Str → Str
  | secretsmanager_secret random_suffix, name =>
    if random_suffix = [] then name else name ++ '-' :: random_suffix
  | events_rule event_bus_name, name =>
    if event_bus_name ≠ "default".toList then event_bus_name ++ '/' :: name else name
  | kms_alias, name =>
    if "alias/".toList.isPrefixOf name = true then name else "alias/".toList ++ name
  | ssm_parameter, name => name.dropWhile (· = '/')
  | _, name => name

/-- The part of the name that the resource contains. -/
def kept : Builder → Str → Str
  | ssm_parameter, name => name.dropWhile (· = '/')
  | _, name => name

/-- The dashboards of an account are in no region. -/
def region : Builder → Str → Str
  | cloudwatch_dashboard, _ => []
  | _, region_name => region_name

/-- Other names that a builder takes have no colon. -/
def Plain : Builder → Prop
  | events_rule event_bus_name => ':' ∉ event_bus_name
  | _ => True

/-- The builders that look for the colon of an ARN in the name as it is given. -/
def LooksAtName : Builder → Prop
  | dynamodb_table | kms_alias => False
  | events_rule event_bus_name => event_bus_name = "default".toList
  | _ => True

end Builder

/-! ## What is built -/

structure ArnData where
  partition : Str
  service : Str
  region : Str
  account : Str
  resource : Str
  deriving DecidableEq, Repr

def arnText (arn : ArnData) : Str :=
  join ':' ["arn".toList, arn.partition, arn.service, arn.region, arn.account, arn.resource]

theorem named_eq {pattern service kind name : Str} (hname : ':' ∉ name)
    (hpieces : split "%s".toList pattern =
      ["arn:".toList, ':' :: (service ++ [':']), [':'], ':' :: kind, []])
    (account_id region_name : Str) : named pattern name account_id region_name =
      some (arnText ⟨get_partition (some region_name), service, region_name, account_id,
        kind ++ name⟩) := by
  rw [named, resource_arn, if_neg fun h => hname h.1, percent, percent, hpieces, if_neg (by simp)]
  simp [fill, arnText, join_cons]

theorem named_global_eq {pattern service kind name : Str} (hname : ':' ∉ name)
    (hpieces : split "%s".toList pattern =
      ["arn:".toList, ':' :: (service ++ "::".toList), ':' :: kind, []])
    (account_id region_name : Str) : named pattern name account_id region_name =
      some (arnText ⟨get_partition (some region_name), service, [], account_id, kind ++ name⟩) := by
  rw [named, resource_arn, if_neg fun h => hname h.1, percent, percent, hpieces, if_pos (by simp)]
  simp [fill, arnText, join_cons]

theorem named_of_mem {name : Str} (h : ':' ∈ name) (pattern account_id region_name : Str) :
    named pattern name account_id region_name = some name := if_pos ⟨h, rfl⟩

theorem arnText_append (partition service region account resource suffix : Str) :
    arnText ⟨partition, service, region, account, resource⟩ ++ suffix =
      arnText ⟨partition, service, region, account, resource ++ suffix⟩ := by
  simp [arnText, join_cons]

theorem secretsmanager_secret_eq {name : Str} (hname : ':' ∉ name)
    (account_id region_name random_suffix : Str) :
    secretsmanager_secret_arn name account_id region_name random_suffix =
      some (arnText ⟨get_partition (some region_name), "secretsmanager".toList, region_name,
        account_id, "secret:".toList ++
          if random_suffix = [] then name else name ++ '-' :: random_suffix⟩) := by
  rw [secretsmanager_secret_arn, if_neg hname, @named_eq _ "secretsmanager".toList
    "secret:".toList name hname (by decide +kernel)]
  split
  · rfl
  · rw [Option.map_some, arnText_append, List.append_assoc]

/-- A builder writes the ARN of its service and its kind of resource. -/
theorem build_eq {b : Builder} (hb : b.Plain) {name : Str} (hname : ':' ∉ name)
    (account_id region_name : Str) : b.build name account_id region_name =
      some (arnText ⟨get_partition (some region_name), b.service, b.region region_name, account_id,
        b.kind ++ b.written name⟩) := by
  cases b with
  | secretsmanager_secret random_suffix =>
    exact secretsmanager_secret_eq hname account_id region_name random_suffix
  | events_rule event_bus_name =>
    have hwritten : ':' ∉ Builder.written (.events_rule event_bus_name) name := by
      rw [Builder.written]
      split
      · simp [hname, show ':' ∉ event_bus_name from hb]
      · exact hname
    have hnamed := @named_eq "arn:%s:events:%s:%s:rule/%s".toList "events".toList "rule/".toList
      _ hwritten (by decide +kernel) account_id region_name
    exact hnamed
  | dynamodb_table =>
    rw [Builder.build, dynamodb_table_arn, show ":table/".toList = ':' :: "table/".toList from rfl,
      split_of_not_mem hname]
    exact named_eq hname (by decide +kernel) account_id region_name
  | cloudwatch_dashboard =>
    exact named_global_eq hname (by decide +kernel) account_id region_name
  | kms_alias =>
    refine named_eq ?_ (by decide +kernel) account_id region_name
    split
    · exact hname
    · simp [hname]
  | ssm_parameter =>
    refine named_eq ?_ (by decide +kernel) account_id region_name
    exact fun h => hname ((List.dropWhile_sublist _).subset h)
  | _ => exact named_eq hname (by decide +kernel) account_id region_name

theorem kept_infix (b : Builder) (name : Str) : b.kept name <:+: b.kind ++ b.written name := by
  have hwritten : b.kept name <:+: b.written name := by
    cases b with
    | secretsmanager_secret random_suffix =>
      rw [Builder.written]
      split
      · exact List.infix_refl name
      · exact (List.prefix_append name _).isInfix
    | events_rule event_bus_name =>
      rw [Builder.written]
      split
      · exact ⟨event_bus_name ++ ['/'], [], by simp [Builder.kept]⟩
      · exact List.infix_refl name
    | kms_alias =>
      rw [Builder.written]
      split
      · exact List.infix_refl name
      · exact (List.suffix_append _ name).isInfix
    | _ => exact List.infix_refl _
  exact hwritten.trans (List.suffix_append _ _).isInfix

/-! ## ARNs as names -/

theorem arnText_eq (d : ArnData) : arnText d = 'a' :: 'r' :: 'n' :: ':' ::
    join ':' [d.partition, d.service, d.region, d.account, d.resource] := rfl

theorem colon_mem_arnText (d : ArnData) : ':' ∈ arnText d := by
  rw [arnText_eq]
  simp

/-- An ARN is left alone, whatever account and region are given with it. -/
theorem build_of_mem {b : Builder} (hb : b.LooksAtName) {arn : Str} (hcolon : ':' ∈ arn)
    (hslash : arn.dropWhile (· = '/') = arn) (account_id region_name : Str) :
    b.build arn account_id region_name = some arn := by
  cases b with
  | secretsmanager_secret random_suffix => exact if_pos hcolon
  | dynamodb_table => exact absurd hb id
  | kms_alias => exact absurd hb id
  | events_rule event_bus_name =>
    have hbus : event_bus_name = "default".toList := hb
    rw [Builder.build]
    simp only [events_rule_arn, hbus, ne_eq, not_true, if_false]
    exact named_of_mem hcolon _ account_id region_name
  | ssm_parameter =>
    rw [Builder.build, ssm_parameter_arn, hslash]
    exact named_of_mem hcolon _ account_id region_name
  | _ => exact named_of_mem hcolon _ account_id region_name

/-- The table builder takes the name out of an ARN and builds the ARN of that name. -/
theorem dynamodb_build_arnText {name : Str} (hname : ':' ∉ name) {d : ArnData}
    (hd : d.resource = "table/".toList ++ name) (account_id region_name : Str) :
    dynamodb_table_arn (arnText d) account_id region_name =
      dynamodb_table_arn name account_id region_name := by
  have hslash : ':' ∉ "table/".toList := by decide
  have hlast : (split (':' :: "table/".toList) (arnText d)).getLastD [] =
      (split (':' :: "table/".toList) name).getLastD [] := by
    have happend : arnText d =
        join ':' ["arn".toList, d.partition, d.service, d.region, d.account] ++
          (':' :: "table/".toList ++ name) := by
      simp [arnText, join_cons, hd]
    rw [happend, split_append hslash, split_of_not_mem hname, List.getLastD_concat]
    rfl
  have hsep : ":table/".toList = ':' :: "table/".toList := rfl
  rw [dynamodb_table_arn, dynamodb_table_arn, hsep, hlast]

/-! ## The parser -/

/-- What the parser of ARNs is documented to return for one. -/
def ParsesArns (parse_arn : Str → Option ArnData) : Prop :=
  ∀ d : ArnData, ':' ∉ d.partition → ':' ∉ d.service → ':' ∉ d.region → ':' ∉ d.account →
    parse_arn (arnText d) = some d

theorem not_mem_get_partition {region_name : Str} (h : ':' ∉ region_name) :
    ':' ∉ get_partition (some region_name) := by
  have hentries : ∀ e ∈ REGION_PREFIX_TO_PARTITION, ':' ∉ e.2 := by decide
  have hdefault : ':' ∉ DEFAULT_PARTITION := by decide
  rw [get_partition]
  split
  · exact hdefault
  · split
    · exact h
    · split
      · next hfind => exact hentries _ (List.mem_of_find?_eq_some hfind)
      · exact hdefault

theorem not_mem_service (b : Builder) : ':' ∉ b.service := by
  cases b with
  | secretsmanager_secret _ => exact (by decide : ':' ∉ "secretsmanager".toList)
  | events_rule _ => exact (by decide : ':' ∉ "events".toList)
  | _ => decide

theorem not_mem_region (b : Builder) {region_name : Str} (h : ':' ∉ region_name) :
    ':' ∉ b.region region_name := by
  cases b with
  | cloudwatch_dashboard => exact List.not_mem_nil
  | _ => exact h

/-- A builder writes an ARN of the name, the account and the region, and takes ARNs for names. -/
theorem builds_arn {parse_arn : Str → Option ArnData} (hparse : ParsesArns parse_arn)
    {b : Builder} (hb : b.Plain) {name account_id region_name : Str} (hname : ':' ∉ name)
    (haccount : ':' ∉ account_id) (hregion : ':' ∉ region_name) :
    ∃ arn d, b.build name account_id region_name = some arn ∧ parse_arn arn = some d ∧
      d.partition = get_partition (some region_name) ∧ d.service = b.service ∧
      d.region = b.region region_name ∧ d.account = account_id ∧ b.kept name <:+: d.resource ∧
      ∀ account_id' region_name',
        (b.LooksAtName → b.build arn account_id' region_name' = some arn) ∧
        (b = .dynamodb_table → b.build arn account_id' region_name' =
          b.build name account_id' region_name') := by
  refine ⟨_, _, build_eq hb hname account_id region_name,
    hparse _ (not_mem_get_partition hregion) (not_mem_service b) (not_mem_region b hregion)
      haccount, rfl, rfl, rfl, rfl, kept_infix b name, fun account_id' region_name' => ⟨?_, ?_⟩⟩
  · exact fun hlooks => build_of_mem hlooks (colon_mem_arnText _) rfl account_id' region_name'
  · rintro rfl
    exact dynamodb_build_arnText hname rfl account_id' region_name'

/-- The six fields of a text with five colons or more. -/
def splitArn (text : Str) : Option ArnData :=
  let (_, _, text) := partition ':' text
  let (partition', _, text) := partition ':' text
  let (service, _, text) := partition ':' text
  let (region, _, text) := partition ':' text
  let (account, colon, resource) := partition ':' text
  if colon = [] then none else some ⟨partition', service, region, account, resource⟩

theorem splitArn_parsesArns : ParsesArns splitArn := by
  intro d hpartition hservice hregion haccount
  have harn : ':' ∉ "arn".toList := by decide
  have htext : arnText d = "arn".toList ++ ':' :: (d.partition ++ ':' :: (d.service ++ ':' ::
      (d.region ++ ':' :: (d.account ++ ':' :: d.resource)))) := by
    simp [arnText, join_cons]
  simp only [splitArn, htext, partition_append harn, partition_append hpartition,
    partition_append hservice, partition_append hregion, partition_append haccount,
    List.cons_ne_nil, if_false]

/-- A rule of a bus; the stream and the table of one account, given to the builders of another. -/
theorem builds_topic_rule :
    (∃ arn d, (Builder.events_rule "bus".toList).build "daily".toList "000000000000".toList
        "cn-north-1".toList = some arn ∧ splitArn arn = some d ∧
      d.partition = "aws-cn".toList ∧ d.region = "cn-north-1".toList ∧
      d.account = "000000000000".toList ∧ "daily".toList <:+: d.resource) ∧
    (∃ arn, Builder.kinesis_stream.build "s".toList "000000000000".toList
        "us-east-1".toList = some arn ∧
      Builder.kinesis_stream.build arn "111111111111".toList "eu-west-1".toList = some arn) ∧
    ∃ arn, Builder.dynamodb_table.build "t".toList "000000000000".toList
        "us-east-1".toList = some arn ∧
      Builder.dynamodb_table.build arn "111111111111".toList "eu-west-1".toList =
        Builder.dynamodb_table.build "t".toList "111111111111".toList "eu-west-1".toList := by
  refine ⟨?_, ?_, ?_⟩
  · obtain ⟨arn, d, harn, hd, hpartition, -, hregion, haccount, hkept, -⟩ :=
      @builds_arn splitArn splitArn_parsesArns (.events_rule "bus".toList)
        (by decide : ':' ∉ "bus".toList) "daily".toList "000000000000".toList "cn-north-1".toList
        (by decide) (by decide) (by decide)
    refine ⟨arn, d, harn, hd, ?_, hregion, haccount, hkept⟩
    rw [hpartition]
    decide +kernel
  · obtain ⟨arn, d, harn, -, -, -, -, -, -, hagain⟩ :=
      @builds_arn splitArn splitArn_parsesArns .kinesis_stream trivial "s".toList
        "000000000000".toList "us-east-1".toList (by decide) (by decide) (by decide)
    exact ⟨arn, harn, (hagain _ _).1 trivial⟩
  · obtain ⟨arn, d, harn, -, -, -, -, -, -, hagain⟩ :=
      @builds_arn splitArn splitArn_parsesArns .dynamodb_table trivial "t".toList
        "000000000000".toList "us-east-1".toList (by decide) (by decide) (by decide)
    exact ⟨arn, harn, (hagain _ _).2 rfl⟩

/-- A dashboard has no region, the name of a parameter loses its slashes, the table builder
rewrites the ARN of another account and region, and the ARN of a bus or a region with a colon
takes the place of the region. -/
theorem dashboard_not_in_region :
    (∃ arn d, Builder.cloudwatch_dashboard.build "d".toList "000000000000".toList
        "us-east-1".toList = some arn ∧ splitArn arn = some d ∧ d.region ≠ "us-east-1".toList) ∧
    (∃ arn d, Builder.ssm_parameter.build "//a".toList "000000000000".toList
        "us-east-1".toList = some arn ∧ splitArn arn = some d ∧ ¬"//a".toList <:+: d.resource) ∧
    (∃ arn, Builder.dynamodb_table.build "t".toList "000000000000".toList "us-east-1".toList =
        some arn ∧
      Builder.dynamodb_table.build arn "111111111111".toList "eu-west-1".toList ≠ some arn) ∧
    (∃ arn d, (Builder.events_rule "arn:aws:events:us-east-1:000000000000:event-bus/b".toList).build
        "r".toList "000000000000".toList "eu-west-1".toList = some arn ∧ splitArn arn = some d ∧
      d.region ≠ "eu-west-1".toList) ∧
    ∃ arn d, Builder.kinesis_stream.build "s".toList "000000000000".toList "a:b".toList = some arn ∧
      splitArn arn = some d ∧ d.region ≠ "a:b".toList := by
  refine ⟨⟨"arn:aws:cloudwatch::000000000000:dashboard/d".toList,
    ⟨"aws".toList, "cloudwatch".toList, [], "000000000000".toList, "dashboard/d".toList⟩, ?_⟩,
    ⟨"arn:aws:ssm:us-east-1:000000000000:parameter/a".toList,
      ⟨"aws".toList, "ssm".toList, "us-east-1".toList, "000000000000".toList,
        "parameter/a".toList⟩, ?_⟩,
    ⟨"arn:aws:dynamodb:us-east-1:000000000000:table/t".toList, ?_⟩,
    ⟨"arn:aws:events:us-east-1:000000000000:event-bus/b/r".toList,
      ⟨"aws".toList, "events".toList, "us-east-1".toList, "000000000000".toList,
        "event-bus/b/r".toList⟩, ?_⟩,
    "arn:aws:kinesis:a:b:000000000000:stream/s".toList,
    ⟨"aws".toList, "kinesis".toList, "a".toList, "b".toList, "000000000000:stream/s".toList⟩, ?_⟩
  · decide +kernel
  · decide +kernel
  · decide +kernel
  · decide +kernel
  · decide +kernel

end LocalStack.Utils.Arns
