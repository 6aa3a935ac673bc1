import Heightfield.Expr.Printer
import Heightfield.Surface.Request
import Heightfield.Proofs.Compilation.Effects
import Heightfield.Proofs.Compilation.Success
import Heightfield.Proofs.Compilation.Growth
import Heightfield.Proofs.Compilation.Lowering
import Heightfield.Proofs.Meaning
import Heightfield.Proofs.Meaning.Frames
import Heightfield.Proofs.Meaning.Preservation
import Heightfield.Proofs.Grammar
import Heightfield.Proofs.Grammar.Reading
import Heightfield.Proofs.Grammar.Normal
import Heightfield.Proofs.Grammar.Exact
import Heightfield.Proofs.Grammar.Sound
import Heightfield.Proofs.Grammar.Acceptance
import Heightfield.Proofs.Addressing
import Heightfield.Proofs.Addressing.Placement
import Heightfield.Proofs.Addressing.Safety
import Heightfield.Proofs.Addressing.Evaluation
import Heightfield.Proofs.WellFormed
import Heightfield.Proofs.WellFormed.Verdict
import Heightfield.Proofs.WellFormed.Faults
import Heightfield.Proofs.Expr.Nodes
import Heightfield.Proofs.Surface.Soundness
import Heightfield.Proofs.Termination
import Heightfield.Proofs.Token.Spelling
import Heightfield.Proofs.Grammar.Abreast
import Heightfield.Proofs.Grammar.Refusal
import Heightfield.Proofs.Expr.Reparse
import Heightfield.Proofs.Surface.Changes
import Heightfield.Proofs.Surface.History
import Heightfield.Proofs.Alpha
import Heightfield.Proofs.Compilation.Assembly
import Heightfield.Proofs.Alpha.Renaming
import Heightfield.Proofs.Alpha.Compilation
import Heightfield.Proofs.Compilation.Random
import Heightfield.Proofs.Compilation.Usage
import Heightfield.Proofs.WellFormed.Free
import Heightfield.Proofs.Unused
import Heightfield.Proofs.Unused.Evaluation
import Heightfield.Proofs.Unused.Report
import Heightfield.Proofs.Unused.Removal
import Heightfield.Proofs.Token.Patterns
import Heightfield.Proofs.Token.Scanning
import Heightfield.Proofs.Token.Tiling
import Heightfield.Proofs.Grammar.Written
import Heightfield.Proofs.Grammar.Places
import Heightfield.Proofs.Expr.Idents
import Heightfield.Proofs.Expr.Readability
import Heightfield.Proofs.Expr.Canonical
import Heightfield.Proofs.Grammar.Tiers
import Heightfield.Proofs.Grammar.Lockstep
import Heightfield.Proofs.Compilation.Warnings
import Heightfield.Proofs.Grammar.Slices
import Heightfield.Proofs.WellFormed.Origin
import Heightfield.Proofs.Diagnostics
import Heightfield.Proofs.Expr.Splitting
import Heightfield.Proofs.Expr.Occurrence
import Heightfield.Proofs.WellFormed.Usage
import Heightfield.Proofs.Unused.Binders
import Heightfield.Proofs.Determinism
import Heightfield.Proofs.Grammar.Expectation
import Heightfield.Proofs.Token.Layout
import Heightfield.Proofs.Grammar.Spans
import Heightfield.Proofs.Suggestion
import Heightfield.Proofs.Compilation.Leftovers
import Heightfield.Proofs.Diagnostic.Colours
import Heightfield.Proofs.Diagnostic.Marks
import Heightfield.Proofs.Operators
import Heightfield.Proofs.Surface.Triangles
import Heightfield.Proofs.Surface.Sampling
import Heightfield.Proofs.Suggestion.Metric
import Heightfield.Proofs.Scope.History
import Heightfield.Proofs.Calls
