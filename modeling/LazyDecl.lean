import LazyDecl.Cursor
import LazyDecl.Memo.Reentrant
import LazyDecl.Main
import LazyDecl.Proofs.Declarations
import LazyDecl.Proofs.Expr
import LazyDecl.Proofs.Eval.Expression
import LazyDecl.Proofs.Eval.Simulation
import LazyDecl.Proofs.Eval.Reference
import LazyDecl.Proofs.Eval.Memoization
import LazyDecl.Proofs.Eval.Program
import LazyDecl.Proofs.Eval.Plan
import LazyDecl.Proofs.Eval.Machine
import LazyDecl.Proofs.Eval.Growth
import LazyDecl.Proofs.Eval.Carry
import LazyDecl.Proofs.Text.Newline
import LazyDecl.Proofs.Text.Lines
import LazyDecl.Proofs.Grammar.Steps
import LazyDecl.Proofs.Grammar.Relabel
import LazyDecl.Proofs.Grammar.Derivation
import LazyDecl.Proofs.Grammar.Precedence
import LazyDecl.Proofs.Grammar.Conservation
import LazyDecl.Proofs.Grammar.Printing
import LazyDecl.Proofs.Grammar.Seam
import LazyDecl.Proofs.Grammar.Chunks
import LazyDecl.Proofs.Grammar.LeadingLine
import LazyDecl.Proofs.Grammar.Terminator
import LazyDecl.Proofs.Session
import LazyDecl.Proofs.Text.Shape
import LazyDecl.Proofs.Text.Segmentation
import LazyDecl.Proofs.Text.Lexeme
import LazyDecl.Proofs.Text.Spaced
import LazyDecl.Proofs.Grammar.Progress
import LazyDecl.Proofs.Text.CarriageReturn
import LazyDecl.Proofs.Grammar.LineSemicolon
import LazyDecl.Proofs.Grammar.SideBySide
import LazyDecl.Proofs.Grammar.LineUnits
import LazyDecl.Proofs.LineEndings
import LazyDecl.Proofs.Grammar.Brackets
import LazyDecl.Proofs.Grammar.OneLine
import LazyDecl.Proofs.Grammar.Isolation
import LazyDecl.Proofs.Modes
import LazyDecl.Proofs.Eval.Discipline
import LazyDecl.Proofs.Eval.Causes
import LazyDecl.Proofs.Faults
import LazyDecl.Proofs.Text.Numeral
import LazyDecl.Proofs.Text.Scans
import LazyDecl.Proofs.ReadBack
import LazyDecl.Proofs.Eval.Confinement
import LazyDecl.Proofs.Eval.References
import LazyDecl.Proofs.Eval.Cycles
import LazyDecl.Proofs.Eval.Accounting
import LazyDecl.Proofs.Eval.Hoisting
import LazyDecl.Proofs.Eval.Repetition
import LazyDecl.Proofs.Grammar.Sources
import LazyDecl.Proofs.Eval.Reports
import LazyDecl.Proofs.Locations
import LazyDecl.Proofs.Grammar.Counting
import LazyDecl.Proofs.Grammar.Independence
import LazyDecl.Proofs.StringLiterals
import LazyDecl.Proofs.Text.Composition
import LazyDecl.Proofs.Grammar.Carried
import LazyDecl.Proofs.Grammar.LineBreaks
import LazyDecl.Proofs.Grammar.Separators
import LazyDecl.Proofs.Text.Comments
import LazyDecl.Proofs.Text.Literals
import LazyDecl.Proofs.Text.Munch
import LazyDecl.Proofs.Text.LineEnds
import LazyDecl.Proofs.Decimal.Worth
import LazyDecl.Proofs.Decimal.Quotient
import LazyDecl.Proofs.Arithmetic
import LazyDecl.Proofs.Value.Equality
import LazyDecl.Proofs.Eval.Moments
import LazyDecl.Proofs.Eval.TableLiterals
import LazyDecl.Proofs.Memo.Protocol
import LazyDecl.Proofs.Pointer
import LazyDecl.Proofs.Cursor
import LazyDecl.Proofs.Prompt
import LazyDecl.Proofs.Grammar.Compositional
import LazyDecl.Proofs.NumberLiterals
import LazyDecl.Proofs.Value.Digest
import LazyDecl.Proofs.Eval.HashedTables
