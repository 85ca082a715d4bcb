import TreeAssay.Dump.Read
import TreeAssay.Main
import TreeAssay.Proofs.Command.Arguments
import TreeAssay.Proofs.Command.Execution
import TreeAssay.Proofs.Dump.Grammar
import TreeAssay.Proofs.Dump.Offsets
import TreeAssay.Proofs.Dump.Rendering
import TreeAssay.Proofs.Dump.RoundTrip
import TreeAssay.Proofs.Files.Discovery
import TreeAssay.Proofs.Files.Loading
import TreeAssay.Proofs.Markup.Classification
import TreeAssay.Proofs.Markup.Decoding
import TreeAssay.Proofs.Markup.Markers
import TreeAssay.Proofs.Markup.Offsets
import TreeAssay.Proofs.Markup.Tag
import TreeAssay.Proofs.Reduction.Actions
import TreeAssay.Proofs.Reduction.Cheapest
import TreeAssay.Proofs.Reduction.Closure
import TreeAssay.Proofs.Reduction.Evaluation
import TreeAssay.Proofs.Reduction.Fixpoint
import TreeAssay.Proofs.Reduction.Founded
import TreeAssay.Proofs.Reduction.Numbering
import TreeAssay.Proofs.Reduction.Precedence
import TreeAssay.Proofs.Reduction.Soundness
import TreeAssay.Proofs.Reduction.Subtrees
import TreeAssay.Proofs.Reduction.Width
import TreeAssay.Proofs.Runs.Conversions
import TreeAssay.Proofs.Runs.Dumps
import TreeAssay.Proofs.Runs.Expectations
import TreeAssay.Proofs.Runs.Independence
import TreeAssay.Proofs.Runs.Literals
import TreeAssay.Proofs.Runs.Repetition
import TreeAssay.Proofs.Runs.Reports
import TreeAssay.Proofs.Runs.Unbroken
import TreeAssay.Proofs.Runs.Verdicts
import TreeAssay.Proofs.Suite.Composition
import TreeAssay.Proofs.Suite.Contents
import TreeAssay.Proofs.Suite.Indentation
import TreeAssay.Proofs.Suite.LineEndings
import TreeAssay.Proofs.Suite.Locations
import TreeAssay.Proofs.Suite.Progress
import TreeAssay.Proofs.Suite.Warnings
import TreeAssay.Proofs.Suite.Written
import TreeAssay.Proofs.Text.Lines
import TreeAssay.Proofs.Text.Offsets
import TreeAssay.Proofs.Trees.Canonical
import TreeAssay.Proofs.Trees.Groups
import TreeAssay.Tree.Shape
