import Zabbix.DbCache.Run
import Zabbix.DbEscape
import Zabbix.DbCache.MassComplete
import Zabbix.Trapper.Lookup
import Zabbix.Lib.Precedence
import Zabbix.Expression.Standard
import Zabbix.Items.Update
import Zabbix.Lib.Nearest
import Zabbix.Lib.Summary
import Zabbix.DbCache.TrendRun
import Zabbix.Json.RoundTrip
import Zabbix.Json.Bounds
import Zabbix.Escalator.Recovery
import Zabbix.Escalator.Recovery
import Zabbix.Datasender.HistorySender
import Zabbix.Datasender.Delivery
import Zabbix.DbSchema
import Zabbix.Ids.NextId
import Zabbix.Ids.Reserved
import Zabbix.Ids.MaxId
import Zabbix.Ids.Allocation
import Zabbix.Comms.Tcp
import Zabbix.Comms.Bounds
import Zabbix.Comms.Framing
import Zabbix.Lib.Walk
import Zabbix.Triggers.Dependent
import Zabbix.Json.Each
import Zabbix.Uint64Array
import Zabbix.Proxyconfig.Database
import Zabbix.Proxyconfig.Send
import Zabbix.Proxyconfig.Receive
import Zabbix.Proxyconfig.Document
import Zabbix.Proxyconfig.Values
import Zabbix.Proxyconfig.Apply
import Zabbix.Proxyconfig.Transfer
import Zabbix.Proxyconfig.Sync
import Zabbix.Ids.Alone
import Zabbix.Triggers.Event
import Zabbix.Triggers.Notify
import Zabbix.Agent.Active
import Zabbix.Agent.Buffer
import Zabbix.DbCache.TrendBounds
import Zabbix.Nodes.Field
import Zabbix.Nodes.History
import Zabbix.Nodes.Reception
import Zabbix.Nodes.Trends
import Zabbix.Poller.Availability
import Zabbix.Agent.Log
import Zabbix.Lib.Propagate
import Zabbix.Services.Service
import Zabbix.Lib.Outcome
import Zabbix.Services.Tree
import Zabbix.Discovery.Discoverer
import Zabbix.Discovery.Proxy
import Zabbix.Discovery.Replay
import Zabbix.Lib.SqlStatement
import Zabbix.Nodes.Config
import Zabbix.Nodes.Sync
import Zabbix.Nodes.SyncReplay
import Zabbix.Nodes.SyncStatement
import Zabbix.Nodes.HistorySync
import Zabbix.Items.Nextcheck
import Zabbix.Sender.InputLine
import Zabbix.Sender.InputFile
import Zabbix.Lib.Braces
import Zabbix.Lib.Rekey
import Zabbix.Nodes.NodeChange
import Zabbix.Nodes.ChangeExpression
import Zabbix.Nodes.ChangeRun
import Zabbix.Nodes.Renaming
import Zabbix.Params.ParamList
import Zabbix.Params.ParamCount
import Zabbix.Params.ParamQuote
import Zabbix.Actions.Conditions
import Zabbix.Actions.Escalation
import Zabbix.Macros.FunctionIds
import Zabbix.Macros.Substitute
import Zabbix.Params.ReplaceParam
import Zabbix.Actions.CheckCondition
import Zabbix.Items.NextInterval
import Zabbix.Lib.Upsert
import Zabbix.Agent.UserParameter
import Zabbix.Lib.Decimal
import Zabbix.Poller.ResultType
import Zabbix.Lists.Ipv6
import Zabbix.Lists.Addresses
import Zabbix.DbCache.Lastclock
import Zabbix.Lib.SqlBatch
import Zabbix.DbCache.ProxyItems
import Zabbix.Triggers.EvalFunction
import Zabbix.Lib.Subst
import Zabbix.Macros.TriggerConstants
import Zabbix.DbCache.Nextchecks
import Zabbix.Lib.InList
import Zabbix.DbCondition
import Zabbix.PgBytea
import Zabbix.Lib.Cascade
import Zabbix.Host.Tables
import Zabbix.Host.DeleteGraph
import Zabbix.Host.Services
import Zabbix.Host.DeleteTrigger
import Zabbix.Host.DeleteItem
import Zabbix.Lib.References
import Zabbix.Host.CompareTriggers
import Zabbix.Host.Explode
import Zabbix.Host.Implode
import Zabbix.Host.ExplodeImplode
import Zabbix.Host.UpdateTrigger
import Zabbix.Host.ImplodeExplode
import Zabbix.Host.ReplaceHost
import Zabbix.Host.UpdateLinked
import Zabbix.Lib.Chain
import Zabbix.Agent.Alias
import Zabbix.Crypto.Base64
import Zabbix.Httppoller.Page
import Zabbix.Actions.RemoteCommands
import Zabbix.Httppoller.HttpMacros
import Zabbix.Housekeeper.History
import Zabbix.Discovery.Edges
import Zabbix.Discovery.Observed
import Zabbix.Discovery.Ranges
import Zabbix.Discovery.Coverage
import Zabbix.Lib.Slots
import Zabbix.Agent.Cpustat
import Zabbix.Lib.Tally
import Zabbix.Poller.Aggregate
import Zabbix.Poller.AggregateValues
import Zabbix.Uint64Block
import Zabbix.Nodes.Hex
import Zabbix.Lib.Forest
import Zabbix.Nodes.Command
import Zabbix.StrAlloc
import Zabbix.Comms.ParseResponse
import Zabbix.Host.CopyTrigger
import Zabbix.Agent.Metrics
import Zabbix.Expression.Brackets
import Zabbix.Trapper.ActiveChecks
import Zabbix.Agent.Thread
import Zabbix.Agent.Following
import Zabbix.Agent.Pass
import Zabbix.Trapper.AgentData
import Zabbix.Triggers.EvaluateExpression
import Zabbix.Triggers.MassUpdate
import Zabbix.Triggers.MassRun
