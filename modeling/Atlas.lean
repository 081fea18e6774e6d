import Atlas.History.ReuseRuns
import Atlas.History.ReplayListing
import Atlas.History.Isolation
import Atlas.History.Completeness
import Atlas.Content.Registry
import Atlas.Refactor.Preview
import Atlas.Refactor.GraphRefresh
import Atlas.Engine.RecordedRuns
import Atlas.Mcp.TaskDelivery
import Atlas.Mcp.TaskFinality
import Atlas.Engine.WatchCoverage
import Atlas.Review.PayloadProperties
import Atlas.Engine.BudgetRuns
import Atlas.Hooks.Secrets
import Atlas.Insights.FingerprintRuns
import Atlas.Insights.SnapshotIsolation
import Atlas.Session.WakePack
import Atlas.Mcp.FileTools
import Atlas.Repo.RegistryRuns
import Atlas.Hooks.BridgeProperties
import Atlas.Store.EdgeIntegrity
import Atlas.Store.ChunkAgreement
import Atlas.Engine.ExplicitDeletions
import Atlas.History.Scc
import Atlas.DbUtils.MigrationRuns
import Atlas.Engine.Dependents
import Atlas.Engine.CallResolutionProperties
import Atlas.Refactor.LineEditsProperties
import Atlas.History.RetentionRules
import Atlas.History.LifecycleProperties
import Atlas.Refactor.DeadCode
import Atlas.Content.ChunkText
import Atlas.Content.FtsEscape
import Atlas.Content.SizeLimit
import Atlas.Repo.NameStatus
import Atlas.Store.NodeListing
import Atlas.Search.Expansion
import Atlas.Search.RankFusion
import Atlas.Hooks.Events
import Atlas.Hooks.Fields
import Atlas.Review.DocsSectionProperties
import Atlas.Session.TaskPages
import Atlas.Session.GlobalMemory
import Atlas.Review.QueryParser
import Atlas.Session.Consolidation
import Atlas.Hooks.Redaction
import Atlas.Mcp.SavedContext
import Atlas.Mcp.Purge
import Atlas.Mcp.SearchContent
import Atlas.Impact.Scores
import Atlas.Refactor.LongestCommon
import Atlas.Session.CanonicalJson
import Atlas.Session.WakeLists
import Atlas.History.BlobBatch
import Atlas.Core.CivilDate
