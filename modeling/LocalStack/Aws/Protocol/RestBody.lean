import LocalStack.Aws.JsonText
import LocalStack.Aws.Protocol.JsonTrees
import LocalStack.Aws.Protocol.RestXml
import LocalStack.Lib.Xml

/-! The bytes of a REST body: `_serialize_body_params` of the REST-XML, the S3 and
the REST-JSON serializer. The third-party functions `xmltodict.parse` and
`cbor2_dumps` and the text of a float are parameters. -/

namespace LocalStack.Aws.Protocol.RestBody
open LocalStack.Lists LocalStack.Text LocalStack.Decimal LocalStack.Bytes LocalStack.Calendar
open LocalStack.OrderedDict LocalStack.Aws.Datetime
open LocalStack.Aws.Protocol.Serializer LocalStack.Aws.Protocol.JsonTrees
open LocalStack.Aws.Protocol.Json (serializeWith membersWith)
open LocalStack.Aws.Protocol.RestXml (Element Texts xmlTexts)

abbrev Bytes := List UInt8

/-! ## Element trees -/

/-- For JSON a timestamp is cut to whole seconds. -/
def jsonTexts (reprFloat : ℚ → Str) : Texts where
  timestamp _ t := .str (intToStr (truncate (timestamp t)))
  reprFloat := reprFloat

/-- `S3ResponseSerializer._timestamp_iso8601` has no microseconds. -/
def s3Texts (reprFloat : ℚ → Str) : Texts where
  timestamp format t :=
    match format.getD .iso8601 with
    | .iso8601 => .str (formatSeconds t ++ ".000Z".toList)
    | .unixtimestamp => .float (timestamp t)
  reprFloat := reprFloat

/-- `_serialize_body_params_to_xml`: the first element. -/
def serialize_body_params_to_xml (texts : Texts) (params : Value) (shape : Shape)
    (shape_name : Str) : Except Error Element := do
  match ← RestXml.serialize texts shape params (shape.getSerializedName shape_name) with
  | [] => throw .indexError
  | real_root :: _ => return real_root

/-! ## The text of a tree -/

/-- `_escape_attrib`, for one character. -/
def escapeAttribChar (c : Char) : Str :=
  if c = '"' then "&quot;".toList
  else if c = '\r' then "&#13;".toList
  else if c = '\n' then "&#10;".toList
  else if c = '\t' then "&#09;".toList
  else Xml.escapeChar c

/-- Only strings can be escaped. -/
def attributeText (p : Str × Value) : Except Error Str :=
  match p.2 with
  | .str s => .ok (' ' :: p.1 ++ '=' :: '"' :: s.flatMap escapeAttribChar ++ ['"'])
  | _ => .error .typeError

def nodeText (text : Value) : Except Error Str :=
  if text.truthy then
    match text with
    | .str s => .ok (Xml.escape s)
    | _ => .error .typeError
  else .ok []

mutual

/-- `_serialize_xml`, for names without a namespace in braces. -/
def writeElement : Element → Except Error Str
  | .mk tag attrib text children => do
    let items := (← attrib.mapM attributeText).flatten
    if text.truthy ∨ children ≠ [] then
      return '<' :: tag ++ items ++ '>' :: (← nodeText text) ++ (← writeElements children) ++
        '<' :: '/' :: tag ++ ['>']
    else return '<' :: tag ++ items ++ " />".toList

def writeElements : List Element → Except Error Str
  | [] => .ok []
  | e :: es => do return (← writeElement e) ++ (← writeElements es)

end

def xmlDeclaration : Str := "<?xml version='1.0' encoding='utf-8'?>\n".toList

/-- `ETree.tostring` with the declaration; `tail` is the tail of the root. -/
def tostring (root : Element) (tail : Str) : Except Error Str := do
  return xmlDeclaration ++ (← writeElement root) ++ tail

example : (tostring (.mk "Records".toList [("xmlns".toList, .str ['"'])] .none
      [.mk "Payload".toList [] (.str []) [], .mk ['a'] [] (.str ['<']) []]) ['\n']).toOption =
    some (xmlDeclaration ++
      "<Records xmlns=\"&quot;\"><Payload /><a>&lt;</a></Records>\n".toList) := by decide

mutual

/-- `strip_xmlns`. -/
def strip_xmlns : Value → Value
  | .list vs => .list (stripItems vs)
  | .dict d =>
    match Dict.erase d "@xmlns".toList with
    | [(k, v)] => if k = "#text".toList then v else .dict (stripEntries d)
    | _ => .dict (stripEntries d)
  | v => v

def stripItems : List Value → List Value
  | [] => []
  | v :: vs => strip_xmlns v :: stripItems vs

/-- The entries but for the namespace. -/
def stripEntries : List (Str × Value) → List (Str × Value)
  | [] => []
  | (k, v) :: d =>
    if k = "@xmlns".toList then stripEntries d else (k, strip_xmlns v) :: stripEntries d

end

/-! ## Bodies -/

/-- The third-party functions. -/
structure Libraries where
  xmltodict_parse : Bytes → Except Error Value
  /-- with the key `None` where a body has one -/
  cbor2_dumps : List (Option Str × Value) → Except Error Bytes
  reprFloat : ℚ → Str

section
variable (lib : Libraries)

/-- `_node_to_string`; the flag stands for the JSON mime type. -/
def node_to_string (root : Element) (tail : Str) (json : Bool) : Except Error Bytes := do
  let content := encodeUtf8 (← tostring root tail)
  if json then
    let xml_dict := strip_xmlns (← lib.xmltodict_parse content)
    return encodeUtf8 (← JsonText.dumps {} lib.reprFloat xml_dict)
  else return content

/-- `RestXMLResponseSerializer._serialize_body_params`. -/
def restXmlBody (json : Bool) (params : Value) (shape : Shape) (shape_name : Str) :
    Except Error Bytes := do
  let texts := if json then jsonTexts lib.reprFloat else xmlTexts lib.reprFloat
  let root ← serialize_body_params_to_xml texts params shape shape_name
  node_to_string lib root [] json

def _RESPONSE_ROOT_TAGS : Dict Str Str :=
  [
    ("CompleteMultipartUploadOutput", "CompleteMultipartUploadResult"),
    ("CopyObjectOutput", "CopyObjectResult"),
    ("CreateMultipartUploadOutput", "InitiateMultipartUploadResult"),
    ("DeleteObjectsOutput", "DeleteResult"),
    ("GetBucketAccelerateConfigurationOutput", "AccelerateConfiguration"),
    ("GetBucketAclOutput", "AccessControlPolicy"),
    ("GetBucketAnalyticsConfigurationOutput", "AnalyticsConfiguration"),
    ("GetBucketCorsOutput", "CORSConfiguration"),
    ("GetBucketEncryptionOutput", "ServerSideEncryptionConfiguration"),
    ("GetBucketIntelligentTieringConfigurationOutput", "IntelligentTieringConfiguration"),
    ("GetBucketInventoryConfigurationOutput", "InventoryConfiguration"),
    ("GetBucketLifecycleOutput", "LifecycleConfiguration"),
    ("GetBucketLifecycleConfigurationOutput", "LifecycleConfiguration"),
    ("GetBucketLoggingOutput", "BucketLoggingStatus"),
    ("GetBucketMetricsConfigurationOutput", "MetricsConfiguration"),
    ("NotificationConfigurationDeprecated", "NotificationConfiguration"),
    ("GetBucketOwnershipControlsOutput", "OwnershipControls"),
    ("GetBucketPolicyStatusOutput", "PolicyStatus"),
    ("GetBucketReplicationOutput", "ReplicationConfiguration"),
    ("GetBucketRequestPaymentOutput", "RequestPaymentConfiguration"),
    ("GetBucketTaggingOutput", "Tagging"),
    ("GetBucketVersioningOutput", "VersioningConfiguration"),
    ("GetBucketWebsiteOutput", "WebsiteConfiguration"),
    ("GetObjectAclOutput", "AccessControlPolicy"),
    ("GetObjectLegalHoldOutput", "LegalHold"),
    ("GetObjectLockConfigurationOutput", "ObjectLockConfiguration"),
    ("GetObjectRetentionOutput", "Retention"),
    ("GetObjectTaggingOutput", "Tagging"),
    ("GetObjectAttributesOutput", "GetObjectAttributesResponse"),
    ("GetPublicAccessBlockOutput", "PublicAccessBlockConfiguration"),
    ("ListBucketAnalyticsConfigurationsOutput", "ListBucketAnalyticsConfigurationResult"),
    ("ListBucketInventoryConfigurationsOutput", "ListInventoryConfigurationsResult"),
    ("ListBucketMetricsConfigurationsOutput", "ListMetricsConfigurationsResult"),
    ("ListBucketsOutput", "ListAllMyBucketsResult"),
    ("ListMultipartUploadsOutput", "ListMultipartUploadsResult"),
    ("ListObjectsOutput", "ListBucketResult"),
    ("ListObjectsV2Output", "ListBucketResult"),
    ("ListObjectVersionsOutput", "ListVersionsResult"),
    ("ListPartsOutput", "ListPartsResult"),
    ("UploadPartCopyOutput", "CopyPartResult")
  ].map fun p => (p.1.toList, p.2.toList)

def XML_NAMESPACE : Str := "http://s3.amazonaws.com/doc/2006-03-01/".toList

/-- The root tag, the namespace and the tail of an S3 body. -/
def s3Root (root : Element) : Element :=
  .mk ((_RESPONSE_ROOT_TAGS.get root.tag).getD root.tag)
    (root.attrib.set "xmlns".toList (.str XML_NAMESPACE)) root.text root.children

/-- `S3ResponseSerializer._serialize_body_params`; the mime types are those of XML. -/
def s3Body (params : Value) (shape : Shape) (shape_name : Str) : Except Error Bytes := do
  let root ← serialize_body_params_to_xml (s3Texts lib.reprFloat) params shape shape_name
  node_to_string lib (s3Root root) ['\n'] false

mutual

/-- With a CBOR mime type blobs and timestamps are set as they are, like strings. -/
def cborShape : Shape → Shape
  | .scalar ser _ => .scalar ser .string
  | .list ser member => .list ser (cborShape member)
  | .map ser key value => .map ser key (cborShape value)
  | .struct ser traits members => .struct ser traits (cborMembers members)

def cborMembers : List (Str × Shape) → List (Str × Shape)
  | [] => []
  | (name, shape) :: members => (name, cborShape shape) :: cborMembers members

end

/-- The entries that `_serialize` with the key `None` adds to the empty body. -/
def bodyEntries (params : Value) (shape : Shape) : Except Error (List (Option Str × Value)) :=
  match params, shape with
  | .dict d, .struct _ traits members =>
    if traits.is_document_type then .ok [(none, params)]
    else
      wrapSerializerErrors
        ((membersWith true members d []).map fun body => body.map fun p => (some p.1, p.2))
  | _, _ => (serializeWith true params shape [] []).map fun body => body.map fun p => (none, p.2)

/-- `json.dumps` writes the key `None` as null. -/
def jsonKey (key : Option Str) : Str := key.getD "null".toList

/-- `RestJSONResponseSerializer._serialize_body_params`. -/
def restJsonBody (cbor : Bool) (params : Value) (shape : Shape) : Except Error Bytes := do
  let body ← bodyEntries params (if cbor then cborShape shape else shape)
  if cbor then lib.cbor2_dumps body
  else
    return encodeUtf8
      (← JsonText.dumps {} lib.reprFloat (.dict (body.map fun p => (jsonKey p.1, p.2))))

end

/-! ## A body is not empty -/

theorem encodeUtf8_eq_nil {s : Str} : encodeUtf8 s = [] ↔ s = [] := by
  rw [encodeUtf8, List.flatMap_eq_nil_iff, List.eq_nil_iff_forall_not_mem]
  exact forall_congr' fun c => imp_congr_right fun _ => iff_false_intro String.utf8EncodeChar_ne_nil

theorem dumps_ne_nil {separators : JsonText.Separators} {reprFloat : ℚ → Str}
    (hfloat : ∀ q, reprFloat q ≠ []) {v : Value} {s : Str}
    (h : JsonText.dumps separators reprFloat v = .ok s) : s ≠ [] := by
  cases v with
  | float q =>
    obtain rfl := Except.ok.inj h
    exact hfloat q
  | list vs =>
    obtain ⟨items, -, hs⟩ := exists_of_bind_ok h
    cases hs
    exact List.cons_ne_nil _ _
  | dict d =>
    obtain ⟨entries, -, hs⟩ := exists_of_bind_ok h
    cases hs
    exact List.cons_ne_nil _ _
  | bool b =>
    obtain rfl := Except.ok.inj h
    cases b <;> decide
  | special x => cases x <;> obtain rfl := Except.ok.inj h <;> decide
  | int i =>
    obtain rfl := Except.ok.inj h
    exact intToStr_ne_nil i
  | none =>
    obtain rfl := Except.ok.inj h
    decide
  | str s =>
    obtain rfl := Except.ok.inj h
    exact List.cons_ne_nil _ _
  | bytes | datetime => cases h

/-- The text of a float and a CBOR item are not empty. -/
structure Libraries.Documented (lib : Libraries) : Prop where
  reprFloat_ne_nil : ∀ q, lib.reprFloat q ≠ []
  cbor2_dumps_ne_nil : ∀ body bs, lib.cbor2_dumps body = .ok bs → bs ≠ []

section
variable {lib : Libraries}

theorem node_to_string_ne_nil (hlib : lib.Documented) {root : Element} {tail : Str}
    {json : Bool} {bs : Bytes} (h : node_to_string lib root tail json = .ok bs) : bs ≠ [] := by
  obtain ⟨content, hcontent, h⟩ := exists_of_bind_ok h
  cases json with
  | false =>
    cases h
    obtain ⟨text, -, hs⟩ := exists_of_bind_ok hcontent
    cases hs
    rw [ne_eq, encodeUtf8_eq_nil]
    exact List.cons_ne_nil _ _
  | true =>
    obtain ⟨xml_dict, -, h⟩ := exists_of_bind_ok h
    obtain ⟨text, htext, h⟩ := exists_of_bind_ok h
    cases h
    rw [ne_eq, encodeUtf8_eq_nil]
    exact dumps_ne_nil hlib.reprFloat_ne_nil htext

theorem restXmlBody_ne_nil (hlib : lib.Documented) {json : Bool} {params : Value} {shape : Shape}
    {shape_name : Str} {bs : Bytes} (h : restXmlBody lib json params shape shape_name = .ok bs) : bs ≠ [] := by
  obtain ⟨root, -, h⟩ := exists_of_bind_ok h
  exact node_to_string_ne_nil hlib h

theorem s3Body_ne_nil (hlib : lib.Documented) {params : Value} {shape : Shape} {shape_name : Str}
    {bs : Bytes} (h : s3Body lib params shape shape_name = .ok bs) : bs ≠ [] := by
  obtain ⟨root, -, h⟩ := exists_of_bind_ok h
  exact node_to_string_ne_nil hlib h

theorem restJsonBody_ne_nil (hlib : lib.Documented) {cbor : Bool} {params : Value} {shape : Shape}
    {bs : Bytes} (h : restJsonBody lib cbor params shape = .ok bs) : bs ≠ [] := by
  obtain ⟨body, -, h⟩ := exists_of_bind_ok h
  cases cbor with
  | true => exact hlib.cbor2_dumps_ne_nil _ _ h
  | false =>
    obtain ⟨text, htext, h⟩ := exists_of_bind_ok h
    cases h
    rw [ne_eq, encodeUtf8_eq_nil]
    exact dumps_ne_nil hlib.reprFloat_ne_nil htext

end

end LocalStack.Aws.Protocol.RestBody
