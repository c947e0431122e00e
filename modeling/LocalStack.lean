import LocalStack.Aws.Accounts
import LocalStack.Aws.Client
import LocalStack.Aws.Connect
import LocalStack.Aws.Forwarder
import LocalStack.Aws.Handlers.CorsResponse
import LocalStack.Aws.Handlers.RegionRewriter
import LocalStack.Aws.Handlers.ServiceLoader
import LocalStack.Aws.Protocol.BestMatch
import LocalStack.Aws.Protocol.CborRoundTrip
import LocalStack.Aws.Protocol.CborStrict
import LocalStack.Aws.Protocol.Ec2Parser
import LocalStack.Aws.Protocol.EventStream
import LocalStack.Aws.Protocol.JsonCbor
import LocalStack.Aws.Protocol.JsonRoundTrip
import LocalStack.Aws.Protocol.QueryIsolation
import LocalStack.Aws.Protocol.QueryRoundTrip
import LocalStack.Aws.Protocol.QueryTermination
import LocalStack.Aws.Protocol.RestEvents
import LocalStack.Aws.Protocol.RestHeaders
import LocalStack.Aws.Protocol.RestJson
import LocalStack.Aws.Protocol.RestRequest
import LocalStack.Aws.Protocol.RestXmlRoundTrip
import LocalStack.Aws.Protocol.RouterMemory
import LocalStack.Aws.Protocol.RoutingOrder
import LocalStack.Aws.Protocol.RpcV2
import LocalStack.Aws.Protocol.RuleVars
import LocalStack.Aws.Protocol.S3Key
import LocalStack.Aws.Protocol.SqsAliases
import LocalStack.Aws.Protocol.SqsQuery
import LocalStack.Aws.Skeleton
import LocalStack.Aws.Spec
import LocalStack.Config.GatewayBindings
import LocalStack.Http.Transparency
import LocalStack.Logging.LoggerName
import LocalStack.Logging.Masking
import LocalStack.Runtime.Init
import LocalStack.Runtime.Orderly
import LocalStack.Services.Health
import LocalStack.Services.Lifecycle
import LocalStack.Services.PluginErrors
import LocalStack.Services.PluginLoading
import LocalStack.Services.Shutdown
import LocalStack.Services.StoreReset
import LocalStack.Services.StoreValidation
import LocalStack.Services.TransferRefinement
import LocalStack.Utils.Arns
import LocalStack.Utils.Backoff
import LocalStack.Utils.BatchPolicy
import LocalStack.Utils.Batching
import LocalStack.Utils.ChecksumFiles
import LocalStack.Utils.ChunkedData
import LocalStack.Utils.EnabledApis
import LocalStack.Utils.ItemsEquivalent
import LocalStack.Utils.JsonPath
import LocalStack.Utils.Net
import LocalStack.Utils.Objects
import LocalStack.Utils.Once
import LocalStack.Utils.Pagination
import LocalStack.Utils.Patching
import LocalStack.Utils.Serving
import LocalStack.Utils.Singleton
