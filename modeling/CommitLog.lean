import CommitLog.Database.Dialect
import CommitLog.Proofs.Bookkeeping
import CommitLog.Proofs.CommitDecision
import CommitLog.Proofs.DamagedRows
import CommitLog.Proofs.Duplicates
import CommitLog.Proofs.EngineAgreement
import CommitLog.Proofs.FeedProgress
import CommitLog.Proofs.HeadUpdates
import CommitLog.Proofs.HookedCalls
import CommitLog.Proofs.LockedWrites
import CommitLog.Proofs.LogInvariant
import CommitLog.Proofs.Poller.CatchUp
import CommitLog.Proofs.Poller.Delivery
import CommitLog.Proofs.Readability
import CommitLog.Proofs.Refresh
import CommitLog.Proofs.Refusals
import CommitLog.Proofs.Removal
import CommitLog.Proofs.SnapshotResume
import CommitLog.Proofs.SnapshotsDue
import CommitLog.Proofs.WholeCommit
import CommitLog.Proofs.WindowRead
import CommitLog.Proofs.Writing
import CommitLog.Session.Run
import CommitLog.Proofs.Json.Grammar
import CommitLog.Proofs.Json.Prefixes
import CommitLog.Proofs.Json.Shapes
import CommitLog.Proofs.Columns
import CommitLog.Proofs.StoredRoundTrip
import CommitLog.Proofs.Poller.Outages
import CommitLog.Proofs.RetryCount
