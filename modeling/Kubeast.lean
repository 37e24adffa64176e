import Kubeast.Foundation.Transition
import Kubeast.Permissions.Matching
import Kubeast.Foundation.Text
import Kubeast.Permissions.Ceiling
import Kubeast.Database
import Kubeast.ClusterRoles
import Kubeast.Roles.Store
import Kubeast.AccessRequests.Store
import Kubeast.AccessRequests.Permanence
import Kubeast.AccessRequests.Linkage
import Kubeast.Permissions.Catalog
import Kubeast.Roles.Edit
import Kubeast.Roles.Tokens
import Kubeast.AuditChain.Chain
import Kubeast.AuditChain.Store
import Kubeast.AuditChain.Anchor
import Kubeast.AuditChain.Verify
import Kubeast.AuditChain.Retention
import Kubeast.AuditChain.Honest
import Kubeast.AuditChain.Tamper
import Kubeast.AuditSink.Dispatcher
import Kubeast.Foundation.Sorted
import Kubeast.AuditSink.NoSkip
import Kubeast.AuditSink.Latest
import Kubeast.Roles.Issue
import Kubeast.Roles.Scope
import Kubeast.Permissions.APIKeys
import Kubeast.TokenVersion.Check
import Kubeast.TokenVersion.Revoked
import Kubeast.TokenVersion.LiveSessions
import Kubeast.Login.Concurrent
import Kubeast.BuildQueue.Queue
import Kubeast.BuildQueue.Rules
import Kubeast.BuildQueue.Ledger
import Kubeast.Foundation.ThreeValued
import Kubeast.Netpol.Check
import Kubeast.Netpol.Sound
import Kubeast.Foundation.Json
import Kubeast.Foundation.JsonParser
import Kubeast.Foundation.JsonStrings
import Kubeast.Redact.JsonText
import Kubeast.Redact.Rewriter
import Kubeast.Redact.JsonSafe
import Kubeast.Foundation.Lines
import Kubeast.Redact.SecretText
import Kubeast.Redact.Provenance
import Kubeast.Redact.IndentScan
import Kubeast.Redact.QuotedScan
import Kubeast.SignIn.Provision
import Kubeast.SignIn.Wider
import Kubeast.AuditChain.Anchoring
import Kubeast.BuildLog.Cut
import Kubeast.Foundation.Recent
import Kubeast.Webhook.Deliveries
import Kubeast.Webhook.Handler
import Kubeast.Signals.FromPoll
import Kubeast.Signals.Once
import Kubeast.Foundation.Rego
import Kubeast.Gate.Policy
import Kubeast.Gate.PodSecurity
import Kubeast.Foundation.Words
import Kubeast.Render.Score
import Kubeast.Render.Subst
import Kubeast.Render.EnvReading
import Kubeast.Render.EnvFaithful
import Kubeast.Render.Resources
import Kubeast.Render.Objects
import Kubeast.Render.Patches
import Kubeast.Render.Passes
import Kubeast.Render.Owned
import Kubeast.Render.Kept
import Kubeast.Render.Collisions
import Kubeast.Render.Contents
import Kubeast.Render.Links
import Kubeast.Render.Resolves
import Kubeast.Render.Annotations
import Kubeast.Render.GoldenPath
import Kubeast.LogSearch.LogQL
import Kubeast.LogSearch.Scoped
import Kubeast.LogSearch.Rewritten
import Kubeast.Helm.MaskedValues
import Kubeast.Helm.Walk
import Kubeast.Helm.Edited
import Kubeast.Helm.ItemText
import Kubeast.Helm.ListEdits
import Kubeast.Helm.Unchanged
import Kubeast.ToolApprovals.Handlers
import Kubeast.ToolApprovals.Once
import Kubeast.ToolApprovals.Settled
import Kubeast.Foundation.JsonData
import Kubeast.Foundation.JsonDumps
import Kubeast.Foundation.Base64
import Kubeast.ApprovalToken.Token
import Kubeast.ApprovalToken.Binding
import Kubeast.AuditGate.Guarded
import Kubeast.Netflows.Keep
import Kubeast.Netflows.Hidden
import Kubeast.Netflows.Pointers
import Kubeast.Watch.Relay
import Kubeast.WatchList.Client
import Kubeast.WatchList.Settles
import Kubeast.ChatSummary.Covered
import Kubeast.Recordings.Manager
import Kubeast.Recordings.Uploaded
import Kubeast.Multiplexer.Asked
import Kubeast.ChatStream.Manager
import Kubeast.ChatStream.Talk
import Kubeast.ChatStream.Turns
import Kubeast.ChatStream.Arrival
import Kubeast.ChatStream.Composed
import Kubeast.Inbox.Counted
import Kubeast.Investigations.Queue
import Kubeast.Investigations.Once
import Kubeast.Investigations.Settled
import Kubeast.AuditChain.Paged
import Kubeast.Permissions.Overlap
import Kubeast.Permissions.Compact
import Kubeast.SignIn.Groups
import Kubeast.SignIn.Steady
import Kubeast.Netpol.Service
import Kubeast.Netpol.Grouped
import Kubeast.Netpol.Speaks
import Kubeast.PodRow.Row
import Kubeast.PodRow.Agree
import Kubeast.Redact.BlockValues
import Kubeast.Redact.FieldSearch
import Kubeast.Redact.CutValues
import Kubeast.Redact.TakenValues
import Kubeast.Redact.SecretForms
import Kubeast.Redact.CutJson
import Kubeast.DashboardSearch.Search
import Kubeast.Foundation.Recall
import Kubeast.Webhook.Remembered
import Kubeast.BuildLog.Budget
import Kubeast.Foundation.Brackets
import Kubeast.Interval.Step
import Kubeast.Render.Quantities
import Kubeast.Foundation.Regex
import Kubeast.Pipelines.Model
import Kubeast.Render.FileKeys
import Kubeast.BuildStatus.Digests
import Kubeast.Pipelines.Validate
import Kubeast.Pipelines.Paths
import Kubeast.Pipelines.Closed
import Kubeast.Foundation.Layout
import Kubeast.Source.Tree
import Kubeast.Source.SetFile
import Kubeast.Source.Commit
import Kubeast.Foundation.YamlScalars
import Kubeast.Promote.Apply
import Kubeast.Promote.Lines
import Kubeast.Promote.Spelled
import Kubeast.Promote.Written
import Kubeast.Promote.Promoted
import Kubeast.Cache.Glob
import Kubeast.Grafana.Edited
import Kubeast.StoreUrl.Agreed
import Kubeast.WatchServer.Held
import Kubeast.Recordings.Cast
import Kubeast.PodRow.Live
import Kubeast.Foundation.Compare
import Kubeast.PodsPage.Page
import Kubeast.PodsPage.Paged
import Kubeast.Inbox.Marks
import Kubeast.Foundation.Ruler
import Kubeast.Foundation.Calendar
import Kubeast.Cron.Next
import Kubeast.BuildQueue.Restart
import Kubeast.Webhook.Sources
import Kubeast.Plans.Build
