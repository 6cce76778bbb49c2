import Mallard.Machine.ChunkedOutput
import Mallard.Machine.Interaction
import Mallard.Machine.LineEditor
import Mallard.Machine.Timeline
import Mallard.Machine.UndoLog
import Mallard.Model.Core.Branch
import Mallard.Model.Core.Encoding
import Mallard.Model.Core.Green
import Mallard.Model.Core.LineBuffer
import Mallard.Model.Core.Rust
import Mallard.Model.Core.Sharing
import Mallard.Model.Core.Workspace
import Mallard.Model.Medlin.Commands
import Mallard.Model.Medlin.Files
import Mallard.Model.Medlin.Program
import Mallard.Proofs.BranchTexts
import Mallard.Proofs.BranchTimeline
import Mallard.Proofs.BufferTexts
import Mallard.Proofs.CommandLine
import Mallard.Proofs.Desk
import Mallard.Proofs.Dispatch
import Mallard.Proofs.Interning
import Mallard.Proofs.LoadFile
import Mallard.Proofs.Numerals
import Mallard.Proofs.Opening
import Mallard.Proofs.Persistence
import Mallard.Proofs.Reopening
import Mallard.Proofs.Saving
import Mallard.Proofs.SlotTexts
import Mallard.Proofs.Splitting
import Mallard.Proofs.Utf8
import Mallard.Proofs.Workspaces
import Mallard.Proofs.Writing
import Mallard.Soundness.AllOrNothing
import Mallard.Soundness.ByteScanning
import Mallard.Soundness.CapacityHint
import Mallard.Soundness.CommandSyntax
import Mallard.Soundness.Confluence
import Mallard.Soundness.DigestCaching
import Mallard.Soundness.EditorRefinement
import Mallard.Soundness.ForcedReload
import Mallard.Soundness.ForcedVisits
import Mallard.Soundness.HistoryFloor
import Mallard.Soundness.HistoryLog
import Mallard.Soundness.Interference
import Mallard.Soundness.LineGrammar
import Mallard.Soundness.LoaderAgreement
import Mallard.Soundness.LoaderEquivalence
import Mallard.Soundness.ObservableRefinement
import Mallard.Soundness.PanicFreedom
import Mallard.Soundness.PoolFaithfulness
import Mallard.Soundness.PoolLedger
import Mallard.Soundness.PrefixWriting
import Mallard.Soundness.ReadCoherence
import Mallard.Soundness.RepeatedSaves
import Mallard.Soundness.Restart
import Mallard.Soundness.RoundTrip
import Mallard.Soundness.SaveOutcome
import Mallard.Soundness.SavedFiles
import Mallard.Soundness.ScriptComposition
import Mallard.Soundness.SevenBit
import Mallard.Soundness.SilentReads
import Mallard.Soundness.SnapshotRefinement
import Mallard.Soundness.TerminatorFree
import Mallard.Soundness.ValidatorPolicy
import Mallard.Soundness.ValidatorVerdict
import Mallard.Soundness.WholeProgram
import Mallard.ToMathlib.LineJoining
import Mallard.ToMathlib.LineTerminators
import Mallard.ToMathlib.ListEdits
import Mallard.ToMathlib.ListInventory
