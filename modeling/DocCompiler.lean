import DocCompiler.Main
import DocCompiler.Proofs.Compile.ExportGate
import DocCompiler.Proofs.Transclusion.OpenFrames
import DocCompiler.Proofs.Worker.Parity
import DocCompiler.Proofs.Graph.ClosedPaths
import DocCompiler.Proofs.Preflight.Soundness
import DocCompiler.Proofs.Preflight.Resolution
import DocCompiler.Proofs.Compile.Opened
import DocCompiler.Proofs.Preflight.BlockGraph
import DocCompiler.Proofs.Preflight.Exportable
import DocCompiler.Proofs.Compile.Agreement
import DocCompiler.Proofs.Text.Words
import DocCompiler.Proofs.Transclusion.Uses
import DocCompiler.Proofs.Compile.Blocks
import DocCompiler.Proofs.Json.Delimited
import DocCompiler.Proofs.Json.Unambiguous
import DocCompiler.Proofs.Snippet.Seal
import DocCompiler.Proofs.Json.Nested
import DocCompiler.Proofs.Wire.Decoded
import DocCompiler.Proofs.Wire.Reading
import DocCompiler.Proofs.Wire.RoundTrip
import DocCompiler.Proofs.Snippet.Integrity
import DocCompiler.Proofs.Compile.NormalForm
import DocCompiler.Proofs.Compile.MissingSnippets
import DocCompiler.Proofs.Worker.Correlation
import DocCompiler.Proofs.Compile.Provenance
import DocCompiler.Proofs.Compile.Order
import DocCompiler.Proofs.Compile.LineEndings
import DocCompiler.Proofs.Worker.Answers
import DocCompiler.Proofs.Worker.Offline
import DocCompiler.Proofs.CommandLine.Parity
import DocCompiler.Proofs.Graph.TreeEdges
import DocCompiler.Proofs.Transclusion.Seams
import DocCompiler.Proofs.Transclusion.Chains
import DocCompiler.Proofs.Worker.Routing
import DocCompiler.Proofs.Compile.Hygiene
import DocCompiler.Proofs.Preflight.Worklist
import DocCompiler.Proofs.Snippet.Lookup
import DocCompiler.Proofs.Formatting.Decorations
import DocCompiler.Proofs.Formatting.BlankRuns
import DocCompiler.Proofs.Graph.DistinctCycles
import DocCompiler.Proofs.Snippet.Head
import DocCompiler.Proofs.Snippet.PathKey
