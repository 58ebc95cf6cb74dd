import ExprEngine.Main
import ExprEngine.Program.Assembler
import ExprEngine.Proofs.Machine.Refolding
import ExprEngine.Proofs.Machine.Failures
import ExprEngine.Proofs.Machine.Nesting
import ExprEngine.Proofs.Machine.Soundness
import ExprEngine.Proofs.Machine.Callables
import ExprEngine.Proofs.Grammar.RoundTrip
import ExprEngine.Proofs.Number.Bytes
import ExprEngine.Proofs.Grammar.Signs
import ExprEngine.Proofs.Bytewise.Operand
import ExprEngine.Proofs.Bytewise.Parser
import ExprEngine.Proofs.Bytewise.Safety
import ExprEngine.Proofs.Bytewise.Dependence
import ExprEngine.Proofs.Session.Slots
import ExprEngine.Proofs.Session.Store
import ExprEngine.Proofs.Session.Refinement
import ExprEngine.Proofs.Machine.Times
import ExprEngine.Proofs.Operator.Times
import ExprEngine.Proofs.Operator.Compound
import ExprEngine.Proofs.Time.Canonical
import ExprEngine.Proofs.Time.Text
import ExprEngine.Proofs.Operator.Integers
import ExprEngine.Proofs.Machine.Assignments
import ExprEngine.Proofs.Number.Integers
import ExprEngine.Proofs.Operator.Digitless
import ExprEngine.Proofs.Pattern.Words
import ExprEngine.Proofs.Pattern.Refusals
import ExprEngine.Proofs.Pattern.InRange
import ExprEngine.Proofs.Pattern.Case
import ExprEngine.Proofs.Pattern.Characters
import ExprEngine.Proofs.Machine.Visits
import ExprEngine.Proofs.Grammar.Alone
import ExprEngine.Proofs.Grammar.Quotes
import ExprEngine.Proofs.Grammar.Selectors
import ExprEngine.Proofs.Text.Encoding
import ExprEngine.Proofs.Text.Offsets
import ExprEngine.Proofs.Builtin.Arguments
import ExprEngine.Proofs.Builtin.Searches
import ExprEngine.Proofs.Builtin.Positions
import ExprEngine.Proofs.Builtin.Builders
import ExprEngine.Proofs.Builtin.Prefixes
import ExprEngine.Proofs.Builtin.Choices
import ExprEngine.Proofs.Text.Trimming
import ExprEngine.Proofs.Text.Lines
import ExprEngine.Proofs.Directive.Words
import ExprEngine.Proofs.Settings.Changes
import ExprEngine.Proofs.Settings.Entries
import ExprEngine.Proofs.Settings.Composition
import ExprEngine.Proofs.Directive.Lines
import ExprEngine.Proofs.Directive.Quoting
import ExprEngine.Proofs.Directive.Readers
import ExprEngine.Proofs.CommandLine.Rendering
import ExprEngine.Proofs.CommandLine.Listing
