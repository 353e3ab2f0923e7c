import Ember.CommandLine
import Ember.Decimal.Basic
import Ember.Decimal.Layout
import Ember.Decimal.Numeral
import Ember.Decimal.Shortest
import Ember.Double.Arith
import Ember.Double.Basic
import Ember.Double.Bits
import Ember.Double.Round
import Ember.Evaluation.Rules
import Ember.Evaluation.World
import Ember.Failure
import Ember.FileTree
import Ember.Grammar.Cursor
import Ember.Grammar.Expectation
import Ember.Grammar.Rules
import Ember.Highlight
import Ember.Interpreter
import Ember.Main
import Ember.Native.Action
import Ember.Native.Sample
import Ember.Native.Standard
import Ember.Node.Basic
import Ember.Node.Outline
import Ember.Ordered
import Ember.Scope.Basic
import Ember.Session.Basic
import Ember.Session.Command
import Ember.Text.Blank
import Ember.Text.Digit
import Ember.Text.Printable
import Ember.Text.Quoted
import Ember.Token.Basic
import Ember.Token.Scanner
import Ember.Value.Basic
import Ember.Proofs.Derivation
import Ember.Proofs.Outcome
import Ember.Proofs.Segmentation
import Ember.Proofs.Unambiguity
import Ember.Proofs.Soundness
import Ember.Proofs.Completeness
import Ember.Proofs.Printing
import Ember.Proofs.Recognition
import Ember.Proofs.RoundTrip
import Ember.Proofs.Range
import Ember.Proofs.Constancy
import Ember.Proofs.Faults
import Ember.Proofs.Rounding
import Ember.Proofs.Concatenation
import Ember.Proofs.Agreement
import Ember.Proofs.Sequencing
import Ember.Proofs.Literals
import Ember.Proofs.Schedule
import Ember.Proofs.Congruence
import Ember.Proofs.Resolution
import Ember.Proofs.Frame
import Ember.Proofs.Visibility
import Ember.Proofs.Coverage
import Ember.Proofs.Blame
import Ember.Proofs.Progress
import Ember.Proofs.Lockstep
import Ember.Proofs.Viability
import Ember.Proofs.Juncture
import Ember.Proofs.Termination
import Ember.Proofs.Ending
import Ember.Proofs.Layout
import Ember.Proofs.Parents
import Ember.Proofs.Observation
import Ember.Proofs.Cutoff
import Ember.Proofs.Scaling
import Ember.Proofs.Reading
import Ember.Proofs.Remainder
import Ember.Proofs.Identity
import Ember.Proofs.Entries
import Ember.Proofs.Showing
import Ember.Proofs.Reporting
import Ember.Proofs.Legibility
import Ember.Proofs.Properties
import Ember.Proofs.Interception
import Ember.Proofs.Conversation
import Ember.Proofs.Scanning
import Ember.Proofs.Parsing
