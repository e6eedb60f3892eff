import LazyLisp.Arity
import LazyLisp.Builtin
import LazyLisp.CharSet
import LazyLisp.CharSet.Age
import LazyLisp.CharSet.CaseFold
import LazyLisp.CharSet.Category
import LazyLisp.CharSet.Derived
import LazyLisp.CharSet.Emoji
import LazyLisp.CharSet.Listed
import LazyLisp.CharSet.Named
import LazyLisp.CharSet.Script
import LazyLisp.CharSet.ScriptExtension
import LazyLisp.CharSet.Segment
import LazyLisp.Closure
import LazyLisp.CommandLine
import LazyLisp.Core.Call
import LazyLisp.Core.Collection
import LazyLisp.Core.Numeric
import LazyLisp.Core.Spaces
import LazyLisp.Core.Textual
import LazyLisp.Decimal.Binary
import LazyLisp.Decimal.Reading
import LazyLisp.Decimal.Shortest
import LazyLisp.Engine
import LazyLisp.Equality
import LazyLisp.EvalError
import LazyLisp.Evaluation.Body
import LazyLisp.Evaluation.Special
import LazyLisp.Evaluation.Step
import LazyLisp.Failure
import LazyLisp.Folder
import LazyLisp.Form.Alike
import LazyLisp.Form.Reading
import LazyLisp.Form.Shorthand
import LazyLisp.Hashing
import LazyLisp.Interpreter
import LazyLisp.Library
import LazyLisp.Main
import LazyLisp.Names
import LazyLisp.Namespaces
import LazyLisp.Number
import LazyLisp.Pattern.ByteSequence
import LazyLisp.Pattern.Expression
import LazyLisp.Pattern.Footprint
import LazyLisp.Pattern.Grammar
import LazyLisp.Pattern.Matching
import LazyLisp.Pattern.Meaning
import LazyLisp.Pattern.Program
import LazyLisp.Pattern.Tree
import LazyLisp.Printer
import LazyLisp.Program
import LazyLisp.Repl
import LazyLisp.Report
import LazyLisp.Scope
import LazyLisp.Sequence
import LazyLisp.SpecialForm
import LazyLisp.Table
import LazyLisp.Text.Blank
import LazyLisp.Text.Bytes
import LazyLisp.Text.Json
import LazyLisp.Text.Literal
import LazyLisp.Token
import LazyLisp.Token.Lexer
import LazyLisp.Trace
import LazyLisp.Value
import LazyLisp.World
import LazyLisp.Proofs.Running
import LazyLisp.Proofs.Lexing
import LazyLisp.Proofs.Reading
import LazyLisp.Proofs.Lines
import LazyLisp.Proofs.NameStore
import LazyLisp.Proofs.Spelling
import LazyLisp.Proofs.Leaves
import LazyLisp.Proofs.Templates
import LazyLisp.Proofs.Legible
import LazyLisp.Proofs.Likeness
import LazyLisp.Proofs.Comparing
import LazyLisp.Proofs.Literals
import LazyLisp.Proofs.RoundTrip
import LazyLisp.Proofs.Effects
import LazyLisp.Proofs.CoreEffects
import LazyLisp.Proofs.Watched
import LazyLisp.Proofs.EvaluationEffects
import LazyLisp.Proofs.Frames
import LazyLisp.Proofs.Capture
import LazyLisp.Proofs.Clauses
import LazyLisp.Proofs.Arities
import LazyLisp.Proofs.Scoping
import LazyLisp.Proofs.Binding
import LazyLisp.Proofs.LazyCells
import LazyLisp.Proofs.Following
import LazyLisp.Proofs.Insulation
import LazyLisp.Proofs.PlainForms
import LazyLisp.Proofs.Nesting
import LazyLisp.Proofs.Walking
import LazyLisp.Proofs.Refusing
import LazyLisp.Proofs.Tracing
import LazyLisp.Proofs.Transparency
import LazyLisp.Proofs.Concatenation
import LazyLisp.Proofs.Callables
import LazyLisp.Proofs.Finiteness
import LazyLisp.Proofs.Digests
import LazyLisp.Proofs.Equivalence
import LazyLisp.Proofs.Expansion
import LazyLisp.Proofs.Untraced
import LazyLisp.Proofs.Filling
import LazyLisp.Proofs.Showing
import LazyLisp.Proofs.Written
import LazyLisp.Proofs.TemplateMeaning
import LazyLisp.Proofs.Moves
import LazyLisp.Proofs.Grounding
import LazyLisp.Proofs.Opening
import LazyLisp.Proofs.Definitions
import LazyLisp.Proofs.Spreading
import LazyLisp.Proofs.Signals
import LazyLisp.Proofs.TailPositions
import LazyLisp.Proofs.Ownership
import LazyLisp.Proofs.Listing
import LazyLisp.Proofs.Tiling
import LazyLisp.Proofs.Replacing
import LazyLisp.Proofs.Grammar
import LazyLisp.Proofs.Referring
import LazyLisp.Proofs.Naming
import LazyLisp.Proofs.JsonText
import LazyLisp.Proofs.Modes
import LazyLisp.Proofs.BareForms
import LazyLisp.Proofs.Unmarked
import LazyLisp.Proofs.Clearing
import LazyLisp.Proofs.ClearCore
import LazyLisp.Proofs.ClearEvaluation
import LazyLisp.Proofs.MarkFree
import LazyLisp.Proofs.Truthful
import LazyLisp.Proofs.TruthfulCore
import LazyLisp.Proofs.TruthfulEvaluation
import LazyLisp.Proofs.Arithmetic
import LazyLisp.Proofs.Settling
import LazyLisp.Proofs.Editing
import LazyLisp.Proofs.MapHistory
import LazyLisp.Proofs.Positional
import LazyLisp.Proofs.PositionalForms
import LazyLisp.Proofs.Reporting
import LazyLisp.Proofs.Pointing
import LazyLisp.Proofs.PatternText
import LazyLisp.Proofs.Indexing
import LazyLisp.Proofs.Stepping
import LazyLisp.Proofs.Stillness
import LazyLisp.Proofs.LibraryCode
import LazyLisp.Proofs.LibraryForms
import LazyLisp.Proofs.Booting
import LazyLisp.Proofs.Unfolding
import LazyLisp.Proofs.Shortcuts
import LazyLisp.Proofs.Suspending
import LazyLisp.Proofs.Iterating
import LazyLisp.Proofs.Progressions
import LazyLisp.Proofs.Hiding
import LazyLisp.Proofs.Offering
import LazyLisp.Proofs.Demanding
import LazyLisp.Proofs.Deferring
import LazyLisp.Proofs.LazyFunctions
import LazyLisp.Proofs.Looping
import LazyLisp.Proofs.Folding
import LazyLisp.Proofs.SequenceFunctions
