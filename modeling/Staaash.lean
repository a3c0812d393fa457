import Staaash.Archives.Proofs.CompleteProofs
import Staaash.Archives.Proofs.WholenessProofs
import Staaash.Auth.Proofs.PasswordProofs
import Staaash.Auth.Proofs.SignOutProofs
import Staaash.Downloads.Proofs.RangesProofs
import Staaash.Durable.Proofs.StagedProofs
import Staaash.Feed.Proofs.ChangeLogProofs
import Staaash.Folders.Proofs.StatementsProofs
import Staaash.Jobs.Proofs.AttemptsProofs
import Staaash.Journal.Proofs.DurableRunProofs
import Staaash.Journal.Proofs.ResourcesProofs
import Staaash.Journal.Proofs.RestoreProofs
import Staaash.Journal.Proofs.RollForwardProofs
import Staaash.Journal.Proofs.RollbacksProofs
import Staaash.Layout.Proofs.KeysProofs
import Staaash.Layout.Proofs.RenamingProofs
import Staaash.Pair.Proofs.BaseProofs
import Staaash.Pair.Proofs.CollisionsProofs
import Staaash.Pair.Proofs.LocalEditsProofs
import Staaash.Pair.Proofs.ModesProofs
import Staaash.Pair.Proofs.MovesProofs
import Staaash.Planner.Proofs.DeletionSafetyProofs
import Staaash.Planner.Proofs.DroppedProofs
import Staaash.Planner.Proofs.MoveSafetyProofs
import Staaash.Planner.Proofs.OverwriteSafetyProofs
import Staaash.Planner.Proofs.QuiescenceProofs
import Staaash.Reconciliation.Proofs.ReadingProofs
import Staaash.Remote.Proofs.CompletenessProofs
import Staaash.Service.Proofs.AdmissionProofs
import Staaash.Sharing.Proofs.LookingProofs
import Staaash.Uploads.Proofs.CountedProofs
import Staaash.Uploads.Proofs.QuotaProofs
import Staaash.Transfers.Proofs.RequestQueueProofs
import Staaash.Transfers.Proofs.PoolProofs
import Staaash.Transactions.Proofs.AdmissionProofs
import Staaash.Chooser.Proofs.FolderPicksProofs
import Staaash.Remote.Proofs.ScopeProofs
import Staaash.Library.Framing
import Staaash.Layout.Proofs.TrashKeysProofs
import Staaash.Release.Proofs.VersionsProofs
import Staaash.Release.Proofs.ProvenanceProofs
import Staaash.Folders.Proofs.DatesProofs
import Staaash.Journal.Proofs.ManifestStepProofs
import Staaash.Engine.Proofs.QueueProofs
import Staaash.Jobs.Handling
import Staaash.Jobs.Proofs.HandlingProofs
import Staaash.Library.Ranking
import Staaash.Lists.Loading
import Staaash.Lists.Proofs.LoadingProofs
import Staaash.Lists.Proofs.WindowsProofs
import Staaash.Jobs.Proofs.WakingProofs
