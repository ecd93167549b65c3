import Lowering.Main
import Lowering.Program.Display
import Lowering.Proofs.Code.Checking
import Lowering.Proofs.Code.Layout
import Lowering.Proofs.Code.LiteralReading
import Lowering.Proofs.Code.Resolution
import Lowering.Proofs.Code.Scope
import Lowering.Proofs.Code.UniqueReading
import Lowering.Proofs.Text.Spelling
import Lowering.Proofs.FunctionTable.Agreement
import Lowering.Proofs.MessagePack.Forms
import Lowering.Proofs.MessagePack.Serialisation
import Lowering.Proofs.Program.Representation
import Lowering.Proofs.MessagePack.Writing
import Lowering.Proofs.Program.RoundTrip
import Lowering.Proofs.Program.Normalisation
import Lowering.Proofs.File.Replacement
import Lowering.Proofs.Program.Truncation
import Lowering.Proofs.Build.Compilation
import Lowering.Proofs.Build.Output
import Lowering.Proofs.CommandLine.Outcome
import Lowering.Proofs.Include.Filtering
import Lowering.Proofs.Code.GeneratedLines
import Lowering.Proofs.Code.DefinitionLines
import Lowering.Proofs.Code.Prototypes
import Lowering.Proofs.Code.CleanUnit
import Lowering.Proofs.Code.LiteralScanning
import Lowering.Proofs.Text.Numerals
import Lowering.Proofs.CommandLine.Grammar
import Lowering.Proofs.Include.Directives
import Lowering.Proofs.Code.Tokens
import Lowering.Proofs.Code.Identifiers
import Lowering.Proofs.MessagePack.ShortestForm
import Lowering.Proofs.Program.ShortestForm
