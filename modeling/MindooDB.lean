import MindooDB.Materialization.Existence
import MindooDB.Directory.AclIds
import MindooDB.Directory.DeltaLog
import MindooDB.Directory.TimeTravel
import MindooDB.Changefeed.Restarts
import MindooDB.Changefeed.CoalescedRuns
import MindooDB.Directory.Residue
import MindooDB.Access.Quarantine
import MindooDB.Access.Evaluate
import MindooDB.View.Backward
import MindooDB.View.Collapse
import MindooDB.View.Purge
import MindooDB.View.Totals
import MindooDB.Sync.Shown
import MindooDB.Sync.Finished
import MindooDB.View.Replay
import MindooDB.View.RestoreFailure
import MindooDB.Summary.Provider
import MindooDB.Summary.Reopening
import MindooDB.Summary.Completion
import MindooDB.Visibility.AuthorTrust
import MindooDB.Signing.Purposes
import MindooDB.Visibility.KeyVisibility
import MindooDB.UserKeys.Replicas
import MindooDB.UserKeys.ReconcileFlight
import MindooDB.Sealed.FailedChange
import MindooDB.Sealed.Exchange
import MindooDB.Sealed.SameName
import MindooDB.Materialization.Grounding
import MindooDB.Materialization.CausalOrder
import MindooDB.Materialization.HeadsPlan
import MindooDB.Materialization.HeadsVerdict
import MindooDB.Server.Gate
import MindooDB.Store.BloomCache
import MindooDB.Server.AuthenticationRuns
import MindooDB.Client.TokenRuns
import MindooDB.Server.WireRoundTrip
import MindooDB.Attachments.ReadPlan
import MindooDB.View.RestoredRuns
import MindooDB.View.SiblingCache
import MindooDB.History.ReadableDiff
import MindooDB.History.MergeBase
import MindooDB.View.RangeFilter
import MindooDB.UserKeys.Rotation
import MindooDB.Attachments.ComposedEdits
import MindooDB.Server.Capabilities
import MindooDB.Network.ScanFallback
import MindooDB.Network.PutBatches
import MindooDB.Uri.JoinRequest
import MindooDB.Network.RequestScheduler
import MindooDB.Keys.KeyBag
import MindooDB.Server.AllowlistMeaning
import MindooDB.Expressions.References
