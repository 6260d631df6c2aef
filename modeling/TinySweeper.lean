import TinySweeper.ReviewJob.Binding
import TinySweeper.ReviewJob.CheckIdentity
import TinySweeper.ReviewJob.Rearm
import TinySweeper.ReviewJob.Deliveries
import TinySweeper.ReviewJob.Ledger
import TinySweeper.ReviewJob.Progress
import TinySweeper.ReviewJob.Retention
import TinySweeper.ReviewJob.ReviewedHeads
import TinySweeper.Server.Store
import TinySweeper.Evidence.CrossFile
import TinySweeper.Evidence.FlaggedValues
import TinySweeper.Evidence.Patch
import TinySweeper.Evidence.Replay
import TinySweeper.Evidence.Scrub
import TinySweeper.Position.Drift
import TinySweeper.App.CallCeiling
import TinySweeper.Markdown.Inert
import TinySweeper.App.Certificate
import TinySweeper.App.Conservation
import TinySweeper.App.Verdict
import TinySweeper.App.Scheduling
import TinySweeper.App.Recovered
import TinySweeper.App.Standing
import TinySweeper.Automerge.Reviews
import TinySweeper.Automerge.Merge
import TinySweeper.Council.Merge
import TinySweeper.Index.Chunk
import TinySweeper.Indexer.Unchanged
import TinySweeper.ReviewJob.QueueOrder
import TinySweeper.ReviewJob.Redelivery
import TinySweeper.App.Budget
import TinySweeper.App.Clustering
import TinySweeper.Lanes.Grouping
import TinySweeper.Threads.Closing
import TinySweeper.Config.Isolation
import TinySweeper.Harness.Replay
import TinySweeper.PrTriage.Landing
import TinySweeper.PrTriage.Survival
import TinySweeper.Graph.Exact
import TinySweeper.Graph.Annotated
import TinySweeper.Graph.Cap
import TinySweeper.Config.Provenance
import TinySweeper.Automerge.Order
import TinySweeper.E2e.Settle
import TinySweeper.Findings.Committable
import TinySweeper.Findings.OpenBudget
import TinySweeper.PrTriage.Convergence
import TinySweeper.Retrieve.Bounded
import TinySweeper.Flows.Conversation
import TinySweeper.Sentry.Scrubbed
import TinySweeper.Preview.Publish
import TinySweeper.Sentry.Sweep
import TinySweeper.Issues.Closing
import TinySweeper.Harness.Confined
import TinySweeper.Preview.Session
