import Codex.Agent.Residency
import Codex.ApplyPatch.NormalizedUpdate
import Codex.ApplyPatch.ScriptEdits
import Codex.ApplyPatch.VerifyAgreement
import Codex.CodeMode.CellIds
import Codex.CodeMode.Invocations
import Codex.Config.RequirementsUnion
import Codex.ContextManager.Normalize
import Codex.ExecPolicy.Amendment
import Codex.ExecServer.Recovery
import Codex.ExecServer.StdinWrites
import Codex.FuzzyMatch.FindsSubsequence
import Codex.Mcp.ModelTools
import Codex.NetworkProxy.Tightening
import Codex.NoiseRelay.ExecutorStream
import Codex.Permissions.Intersection
import Codex.Permissions.WritableAgreement
import Codex.Readiness.Flag
import Codex.RemoteControl.ConnectionClose
import Codex.RemoteControl.Reassembly
import Codex.RemoteControl.SplitSearch
import Codex.Rollout.ExactlyOnce
import Codex.Rollout.ReverseScanner
import Codex.Session.ContextCut
import Codex.Session.WorldState
import Codex.ShellCommand.DangerousCommand
import Codex.State.MemoryJobs
import Codex.State.SectionOrder
import Codex.State.ThreadTimestamp
import Codex.StreamParser.AssistantText
import Codex.Streaming.StreamCore
import Codex.TurnDiff.RenamePairs
import Codex.UriPath.ContainmentLaws
import Codex.UriPath.Lexical
