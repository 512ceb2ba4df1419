import ZoneSigning.Main
import ZoneSigning.Text.Utf8
import ZoneSigning.Proofs.OrderedMap
import ZoneSigning.Proofs.Successes
import ZoneSigning.Proofs.ScheduleConsistency
import ZoneSigning.Proofs.ScheduleOperations
import ZoneSigning.Proofs.KeyOrder
import ZoneSigning.Proofs.DequeueOrder
import ZoneSigning.Proofs.ScheduleRuns
import ZoneSigning.Proofs.DeliveredRequests
import ZoneSigning.Proofs.Interleaving
import ZoneSigning.Proofs.ThreadSections
import ZoneSigning.Proofs.Bystanders
import ZoneSigning.Proofs.SingleOwnership
import ZoneSigning.Proofs.RecordedRuns
import ZoneSigning.Proofs.AnchoredTasks
import ZoneSigning.Proofs.LiveZones
import ZoneSigning.Proofs.KindsOfWork
import ZoneSigning.Proofs.BatchAccounts
import ZoneSigning.Proofs.LoggedRuns
import ZoneSigning.Proofs.CurrentBatches
import ZoneSigning.Proofs.SignedPublication
import ZoneSigning.Proofs.WholePasses
import ZoneSigning.Proofs.WholeEngines
import ZoneSigning.Proofs.QueueCrowds
import ZoneSigning.Proofs.PoolRuns
import ZoneSigning.Proofs.SigningCalls
import ZoneSigning.Proofs.DispatchedBatches
import ZoneSigning.Proofs.WokenDrudgers
import ZoneSigning.Proofs.SafeEvictions
import ZoneSigning.Proofs.Standings
import ZoneSigning.Proofs.ReconciledStandings
import ZoneSigning.Proofs.DuePasses
import ZoneSigning.Proofs.Reconciliation
import ZoneSigning.Proofs.InventoryHistories
import ZoneSigning.Proofs.Histories
import ZoneSigning.Proofs.RememberedRemovals
import ZoneSigning.Proofs.StandingMoves
import ZoneSigning.Proofs.KeptRequests
import ZoneSigning.Proofs.FilePlaces
import ZoneSigning.Proofs.OutputWriters
import ZoneSigning.Proofs.FreshConfigs
import ZoneSigning.Proofs.IndependentZones
import ZoneSigning.Proofs.ScheduleAnswers
import ZoneSigning.Proofs.RefusedOperations
import ZoneSigning.Proofs.QueueOrder
import ZoneSigning.Proofs.ParkedSteps
import ZoneSigning.Proofs.TaskLives
import ZoneSigning.Proofs.DisplacedWork
import ZoneSigning.Proofs.FreshContents
import ZoneSigning.Proofs.FailedSteps
import ZoneSigning.Proofs.Backoffs
import ZoneSigning.Proofs.TextCuts
import ZoneSigning.Proofs.LineReading
import ZoneSigning.Proofs.WrittenTexts
import ZoneSigning.Proofs.RecordedSignatures
import ZoneSigning.Proofs.SectionCounts
import ZoneSigning.Proofs.Statistics
import ZoneSigning.Proofs.Teardown
import ZoneSigning.Proofs.CanonicalNames
import ZoneSigning.Proofs.CommandLines
import ZoneSigning.Proofs.NamedZones
import ZoneSigning.Proofs.Numerals
import ZoneSigning.Proofs.JsonTexts
import ZoneSigning.Proofs.CanonicalJson
import ZoneSigning.Proofs.Responses
import ZoneSigning.Proofs.ServingLoop
import ZoneSigning.Proofs.LastRequests
import ZoneSigning.Proofs.IdleSleeps
import ZoneSigning.Proofs.TaskBounds
import ZoneSigning.Proofs.KeptLimits
import ZoneSigning.Proofs.ConfiguredRuns
