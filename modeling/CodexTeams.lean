import CodexTeams.PatchAgreement
import CodexTeams.ReplacementSafety
import CodexTeams.RequirementsOverlay
import CodexTeams.TurnDiff
import CodexTeams.PatchPreview
import CodexTeams.PatchFaults
import CodexTeams.AssistantText
import CodexTeams.ReaderDelivery
import CodexTeams.WriterSequence
import CodexTeams.RemoteClients
import CodexTeams.ProcessIds
import CodexTeams.PolicyAmendment
import CodexTeams.NetworkConstraints
import CodexTeams.PermissionIntersection
import CodexTeams.ReplayAgreement
import CodexTeams.RpcClient
import CodexTeams.LocalProcess
import CodexTeams.ComposerTyping
import CodexTeams.PendingApproval
import CodexTeams.StatusPublication
import CodexTeams.InstructionTemplate
import CodexTeams.ToolOutcome
import CodexTeams.RequestDelivery
import CodexTeams.ToolNames
import CodexTeams.UrlWrapRanges
import CodexTeams.HttpBodyStream
import CodexTeams.ProcessEventLog
import CodexTeams.ProcessReads
import CodexTeams.CodeCells
import CodexTeams.MetadataWrites
import CodexTeams.TextAreaRuns
import CodexTeams.HistoryRemoval
import CodexTeams.PolicyEquivalence
import CodexTeams.SessionTeardown
import CodexTeams.OutputItems
import CodexTeams.NetworkRules
import CodexTeams.BlockedTelemetry
import CodexTeams.FuzzyMatch
import CodexTeams.MessageHistory
import CodexTeams.CompactedHistory
import CodexTeams.Readiness
import CodexTeams.GoalBudget
import CodexTeams.WindowsArgs
import CodexTeams.JobCsv
import CodexTeams.Nicknames
