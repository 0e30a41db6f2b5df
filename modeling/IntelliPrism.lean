import IntelliPrism.Lib.Bytewise
import IntelliPrism.Lib.Framing
import IntelliPrism.Lib.Grouping
import IntelliPrism.Lib.History
import IntelliPrism.Lib.Interleaving
import IntelliPrism.Lib.Lines
import IntelliPrism.Lib.Process
import IntelliPrism.Lib.Ranking
import IntelliPrism.Lib.Rounding
import IntelliPrism.Lib.Sharing
import IntelliPrism.Lib.Stretches
import IntelliPrism.Lib.Text
import IntelliPrism.Lib.Tree
import IntelliPrism.Lib.Trim
import IntelliPrism.Lib.Twin
import IntelliPrism.Lib.Word64
import IntelliPrism.Cache.Key
import IntelliPrism.Cache.Standalone
import IntelliPrism.Cache.Index
import IntelliPrism.Cache.Counting
import IntelliPrism.Cache.Eviction
import IntelliPrism.Cache.Accounting
import IntelliPrism.Cache.Reads
import IntelliPrism.Cache.Claims
import IntelliPrism.Core.Id
import IntelliPrism.Core.Timestamp
import IntelliPrism.Core.Limit
import IntelliPrism.Core.Calendar
import IntelliPrism.Core.Route
import IntelliPrism.Gateway.Limit
import IntelliPrism.Gateway.Limiter
import IntelliPrism.Gateway.Requests
import IntelliPrism.Gateway.Single
import IntelliPrism.Gateway.Quota
import IntelliPrism.Gateway.Rate
import IntelliPrism.Gateway.RateExact
import IntelliPrism.Gateway.Alone
import IntelliPrism.Gateway.Admission
import IntelliPrism.Gateway.Visiting
import IntelliPrism.Gateway.Spending
import IntelliPrism.Gateway.Http
import IntelliPrism.Gateway.Sse
import IntelliPrism.Gateway.Events
import IntelliPrism.Gateway.Refusal
import IntelliPrism.Gateway.Stopping
import IntelliPrism.Core.Capability
import IntelliPrism.Gateway.Dispatch
import IntelliPrism.Gateway.Table
import IntelliPrism.Gateway.Routing
import IntelliPrism.Gateway.Shares
import IntelliPrism.Gateway.Headers
import IntelliPrism.Gateway.ResponseCache
import IntelliPrism.Gateway.Flow
import IntelliPrism.Gateway.Authority
import IntelliPrism.Gateway.Hops
import IntelliPrism.Gateway.Question
import IntelliPrism.Gateway.Answers
import IntelliPrism.Gateway.Kept
import IntelliPrism.Gateway.Measure
import IntelliPrism.Dispatch.Requests
import IntelliPrism.Dispatch.Loads
import IntelliPrism.Core.Plugin
import IntelliPrism.Rules.Publication
import IntelliPrism.Rules.Feed
import IntelliPrism.Rules.Following
import IntelliPrism.Rules.Abreast
import IntelliPrism.Rules.Start
import IntelliPrism.Lib.Rely
import IntelliPrism.Lib.Table
import IntelliPrism.Manage.Store
import IntelliPrism.Manage.Calls
import IntelliPrism.Auth.Request
import IntelliPrism.Manage.Handlers
import IntelliPrism.Manage.Writes
import IntelliPrism.Manage.Owners
import IntelliPrism.Manage.Confinement
import IntelliPrism.Manage.Dependence
import IntelliPrism.Manage.Allows
import IntelliPrism.Manage.Ambition
import IntelliPrism.Manage.Removal
import IntelliPrism.Manage.Sight
import IntelliPrism.Plugins.Store
import IntelliPrism.Plugins.Ownership
import IntelliPrism.Plugins.Handlers
import IntelliPrism.Plugins.Shelf
import IntelliPrism.Plugins.Views
import IntelliPrism.Plugins.Headers
import IntelliPrism.Plugins.Chains
import IntelliPrism.Plugins.Sent
import IntelliPrism.Plugins.Holders
import IntelliPrism.Rules.Database
import IntelliPrism.Rules.Revision
import IntelliPrism.Rules.Routes
import IntelliPrism.Rules.Limits
import IntelliPrism.Gateway.Sweeping
import IntelliPrism.Gateway.Settling
import IntelliPrism.Rules.Reconnecting
import IntelliPrism.Server.Router
import IntelliPrism.Auth.Recheck
import IntelliPrism.Auth.Racing
import IntelliPrism.Cache.Keeping
import IntelliPrism.Cache.Recency
import IntelliPrism.Cache.Discard
import IntelliPrism.Cache.Scripts
import IntelliPrism.Cache.Tallies
import IntelliPrism.Auth.Sessions
import IntelliPrism.Auth.Remembered
import IntelliPrism.Server.SystemKeys
import IntelliPrism.Manage.Callers
import IntelliPrism.Server.RouteRules
import IntelliPrism.Auth.Replay
import IntelliPrism.Plugins.Loaded
