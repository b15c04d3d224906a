import Swayam.Lib.Machine
import Swayam.Lib.Interleaving
import Swayam.Lib.Delimited
import Swayam.Lib.Search
import Swayam.Text
import Swayam.Core.Definitions
import Swayam.Core.Log
import Swayam.Core.Append
import Swayam.Core.History
import Swayam.Core.Guarded
import Swayam.Core.LogSystem
import Swayam.Core.LogInvariants
import Swayam.Core.LogText
import Swayam.Core.LostUpdate
import Swayam.Core.Linearizable
import Swayam.Registry
import Swayam.Cas.Definitions
import Swayam.Cas.Updates
import Swayam.Analyzer
import Swayam.Pipeline.Runner
import Swayam.Lib.Stages
import Swayam.ImmuneMemory
import Swayam.Pipeline.Supervisor
import Swayam.Pipeline.Daemon
import Swayam.Lib.Fresh
import Swayam.Core.Peers
import Swayam.Core.PeerSync
import Swayam.Pipeline.Remembered
import Swayam.SafeExtract
import Swayam.Cas.Increment
import Swayam.Lib.FixedWindow
import Swayam.Cas.RateLimit
import Swayam.Lib.Numbering
import Swayam.StructuralHash
import Swayam.Analyzer.Stripping
import Swayam.Analyzer.Threats
import Swayam.Forge.Definitions
import Swayam.Forge.Block
import Swayam.Forge.Frame
import Swayam.Forge.Verdict
import Swayam.Analyzer.Tokens
import Swayam.Analyzer.Constructs
import Swayam.Pipeline.Sticky
import Swayam.Core.Lease
import Swayam.Core.AddsOne
import Swayam.HiveMind
import Swayam.Pipeline.FailClosed
import Swayam.SecureArtifact
import Swayam.Core.Migration
import Swayam.Moltbook.Ledger
import Swayam.Moltbook.Reload
import Swayam.Moltbook.Torn
import Swayam.Pipeline.StatusFile
import Swayam.Pipeline.Instances
import Swayam.Lib.FoldHash
import Swayam.Moltbook.Corruption
import Swayam.Pipeline.Leftovers
import Swayam.Pipeline.Children
import Swayam.Pipeline.Waiting
import Swayam.Lib.Rose
import Swayam.SafeExtract.Written
import Swayam.StructuralHash.Dropped
import Swayam.Forge.Preserved
import Swayam.Analyzer.SourceTokens
import Swayam.Analyzer.Splices
import Swayam.Analyzer.Shielding
import Swayam.Analyzer.Verdicts
import Swayam.Analyzer.Residue
import Swayam.Analyzer.FirstPiece
import Swayam.Analyzer.Sanitizer
import Swayam.Core.Spelling
import Swayam.HashLoops
import Swayam.Lib.ClassicBpf
import Swayam.Pipeline.Seccomp
import Swayam.Lib.GitRepo
import Swayam.Pipeline.GitCortex
import Swayam.Lib.LexicalPath
import Swayam.PublishPath
import Swayam.Lib.Json
import Swayam.Pipeline.StatusJson
import Swayam.Lib.FileTree
import Swayam.Moltbook.WriteMutation
import Swayam.Hive.Definitions
import Swayam.Lib.Relay
import Swayam.Hive.Moves
import Swayam.Hive.Provenance
import Swayam.Hive.Delivery
import Swayam.Hive.Agreement
import Swayam.Cas.Progress
import Swayam.Cas.Refusals
import Swayam.Lib.Script
import Swayam.Pipeline.Branches
import Swayam.Ledger.Atomic
import Swayam.Lib.Transfer
import Swayam.NexusC2
import Swayam.Publication.Workflows
import Swayam.Publication.Offered
import Swayam.Forge.Meaning
import Swayam.AppJwt
import Swayam.Publication.Outcomes
import Swayam.Publication.ShellScan
import Swayam.StructuralHash.Submissions
import Swayam.Lib.Observed
import Swayam.Pipeline.Environment
