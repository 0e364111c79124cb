import ForgejoMcp.Observability.MintedTokens
import ForgejoMcp.Auth.Tokens
import ForgejoMcp.Observability.Logging
import ForgejoMcp.Regex.Pieces
import ForgejoMcp.OAuth.RecoveryCache
import ForgejoMcp.OpenApi.Comparison
import ForgejoMcp.OpenApi.Changes
import ForgejoMcp.OpenApi.Value
import ForgejoMcp.Tools.FilePath
import ForgejoMcp.Regex.Search
import ForgejoMcp.Config.BaseUrl
import ForgejoMcp.Config.HttpOrigin
import ForgejoMcp.Auth.ClientIp
import ForgejoMcp.Auth.MultiScopeRateLimiter
import ForgejoMcp.Auth.LoginRateLimiter
import ForgejoMcp.Client.ActionLogs
import ForgejoMcp.Client.Retries
import ForgejoMcp.Client.CloneAddress
import ForgejoMcp.Python.Url
import ForgejoMcp.Python.IpAddress
import ForgejoMcp.Client.Responses
import ForgejoMcp.Zlib.Decompressor
import ForgejoMcp.Audit.UrlCredentials
import ForgejoMcp.Audit.Arguments
import ForgejoMcp.Audit.Patterns
import ForgejoMcp.Regex.Substitution
import ForgejoMcp.Regex.Matching
import ForgejoMcp.OAuth.RevokeEndpoint
import ForgejoMcp.Client.Queries
import ForgejoMcp.Client.Endpoints
import ForgejoMcp.Client.Contents
import ForgejoMcp.Python.Base64
import ForgejoMcp.Python.Quote
import ForgejoMcp.Client.Validation
import ForgejoMcp.Client.Requests
import ForgejoMcp.Python.Utf8
import ForgejoMcp.Python.Str
import ForgejoMcp.Transactions.Table
import ForgejoMcp.Transactions.History
import ForgejoMcp.Transactions.RelyGuarantee
import ForgejoMcp.Transactions.Serial
import ForgejoMcp.Transactions.Sql
import ForgejoMcp.Transactions.Soundness
import ForgejoMcp.Transactions.Alone
import ForgejoMcp.Transactions.Requests
import ForgejoMcp.Transactions.Completion
import ForgejoMcp.Deployment
import ForgejoMcp.OAuth.Database
import ForgejoMcp.OAuth.Revocation
import ForgejoMcp.OAuth.Service
import ForgejoMcp.OAuth.System
import ForgejoMcp.OAuth.Serial
import ForgejoMcp.OAuth.Consents
import ForgejoMcp.OAuth.Linkage
import ForgejoMcp.OAuth.Family
import ForgejoMcp.OAuth.Invariant
import ForgejoMcp.OAuth.Locks
import ForgejoMcp.OAuth.Refinement.Rules
import ForgejoMcp.OAuth.Refinement.Consent
import ForgejoMcp.OAuth.Refinement.Revocation
import ForgejoMcp.OAuth.Refinement.Refresh
import ForgejoMcp.OAuth.Refinement.Tokens
import ForgejoMcp.OAuth.Refinement.Bearer
import ForgejoMcp.OAuth.Refinement.Permissions
import ForgejoMcp.OAuth.Refinement.System
import ForgejoMcp.OAuth.Origin
import ForgejoMcp.OAuth.FamilyRevocation
import ForgejoMcp.OAuth.FamilyChain
import ForgejoMcp.OAuth.DuplicateRefresh
import ForgejoMcp.OAuth.RecoveredPairs
import ForgejoMcp.OAuth.ConsentBound
import ForgejoMcp.OAuth.TighteningKept
import ForgejoMcp.OAuth.AllowanceBound
import ForgejoMcp.OAuth.FailedRefresh
import ForgejoMcp.OAuth.Retry
import ForgejoMcp.OAuth.SingleUse
import ForgejoMcp.OAuth.Authentication
import ForgejoMcp.OAuth.ConsentExpiry
import ForgejoMcp.Asyncio.Condition
import ForgejoMcp.Runtime.InvocationCoordinator
import ForgejoMcp.Runtime.GracefulShutdown
import ForgejoMcp.Migrations.TokenFamilies
import ForgejoMcp.Migrations.LegacyRevocations
import ForgejoMcp.Forgejo.Configuration
import ForgejoMcp.Forgejo.ClientSecret
import ForgejoMcp.Forgejo.Origins
import ForgejoMcp.Users.Lifecycle
import ForgejoMcp.Credentials.Database
import ForgejoMcp.Credentials.Service
import ForgejoMcp.Credentials.Linking
import ForgejoMcp.Credentials.Administration
import ForgejoMcp.Credentials.System
import ForgejoMcp.Credentials.Serial
import ForgejoMcp.Credentials.Provider
import ForgejoMcp.Credentials.Directory
import ForgejoMcp.Credentials.Invariant
import ForgejoMcp.Credentials.Locks
import ForgejoMcp.Credentials.Refinement.Rules
import ForgejoMcp.Credentials.Refinement.Saving
import ForgejoMcp.Credentials.Refinement.Administration
import ForgejoMcp.Credentials.Refinement.Linking
import ForgejoMcp.Credentials.Refinement.System
import ForgejoMcp.Credentials.Coherence
import ForgejoMcp.Credentials.LinkFlow
import ForgejoMcp.Credentials.Destination
import ForgejoMcp.Credentials.Rotation
import ForgejoMcp.Python.Json
import ForgejoMcp.Audit.Redaction
import ForgejoMcp.Audit.Completeness
import ForgejoMcp.Audit.Invocations
