import LazyLisp.Arity
import LazyLisp.Atom
import LazyLisp.Bindings
import LazyLisp.CommandLine
import LazyLisp.Eval
import LazyLisp.Evaluation
import LazyLisp.Failure
import LazyLisp.FileTable
import LazyLisp.Form
import LazyLisp.Kernel
import LazyLisp.Kernel.Arithmetic
import LazyLisp.Kernel.Closure
import LazyLisp.Kernel.Equality
import LazyLisp.Kernel.Pattern
import LazyLisp.Kernel.Primitives
import LazyLisp.Kernel.Sequence
import LazyLisp.Kernel.SequenceFunctions
import LazyLisp.Kernel.Special
import LazyLisp.Kernel.Text
import LazyLisp.Library
import LazyLisp.Main
import LazyLisp.Namespaces
import LazyLisp.Prelude
import LazyLisp.Primitive
import LazyLisp.Proofs.Additions
import LazyLisp.Proofs.Alike
import LazyLisp.Proofs.Application
import LazyLisp.Proofs.Arithmetic
import LazyLisp.Proofs.Capture
import LazyLisp.Proofs.Cells
import LazyLisp.Proofs.Confinement
import LazyLisp.Proofs.Entries
import LazyLisp.Proofs.Equality
import LazyLisp.Proofs.Evolution
import LazyLisp.Proofs.Forcing
import LazyLisp.Proofs.Frames
import LazyLisp.Proofs.Fuel
import LazyLisp.Proofs.Generated
import LazyLisp.Proofs.Globals
import LazyLisp.Proofs.Indifference
import LazyLisp.Proofs.Interaction
import LazyLisp.Proofs.Loading
import LazyLisp.Proofs.Lookahead
import LazyLisp.Proofs.Mapping
import LazyLisp.Proofs.Maps
import LazyLisp.Proofs.Once
import LazyLisp.Proofs.Parameters
import LazyLisp.Proofs.Patterns
import LazyLisp.Proofs.Persistence
import LazyLisp.Proofs.Progression
import LazyLisp.Proofs.Realization
import LazyLisp.Proofs.Requests
import LazyLisp.Proofs.Rules
import LazyLisp.Proofs.Scoping
import LazyLisp.Proofs.Sequences
import LazyLisp.Proofs.SequentialBinding
import LazyLisp.Proofs.Simulation
import LazyLisp.Proofs.Simulation.Evaluation
import LazyLisp.Proofs.Simulation.Primitives
import LazyLisp.Proofs.Simulation.Sequences
import LazyLisp.Proofs.Source.Atoms
import LazyLisp.Proofs.Source.Calls
import LazyLisp.Proofs.Source.Completion
import LazyLisp.Proofs.Source.Endings
import LazyLisp.Proofs.Source.Extension
import LazyLisp.Proofs.Source.Keys
import LazyLisp.Proofs.Source.Layout
import LazyLisp.Proofs.Source.Lines
import LazyLisp.Proofs.Source.Literals
import LazyLisp.Proofs.Source.Nesting
import LazyLisp.Proofs.Source.Readable
import LazyLisp.Proofs.Source.RoundTrip
import LazyLisp.Proofs.Source.Run
import LazyLisp.Proofs.Source.Seam
import LazyLisp.Proofs.Source.Spelling
import LazyLisp.Proofs.Source.StringLiteral
import LazyLisp.Proofs.Source.Tree
import LazyLisp.Proofs.Source.Turns
import LazyLisp.Proofs.Standard
import LazyLisp.Proofs.Strings
import LazyLisp.Proofs.Taking
import LazyLisp.Proofs.Traversal
import LazyLisp.Repl
import LazyLisp.Source.CharLiteral
import LazyLisp.Source.Cursor
import LazyLisp.Source.Fault
import LazyLisp.Source.Numeral
import LazyLisp.Source.Reader
import LazyLisp.Source.Reading
import LazyLisp.Source.Weight
import LazyLisp.SpecialForm
import LazyLisp.Text.Alphanumeric
import LazyLisp.Text.CharClass
import LazyLisp.Text.CharName
import LazyLisp.Text.Escape
import LazyLisp.Value
import LazyLisp.World
