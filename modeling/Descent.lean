import Descent.Execution
import Descent.Failure.Report
import Descent.Proofs.ChoiceOutcome
import Descent.Proofs.Commitment
import Descent.Proofs.Diagnostics
import Descent.Proofs.Expectations
import Descent.Proofs.IgnoredFailures
import Descent.Proofs.Literals
import Descent.Proofs.LongestRuns
import Descent.Proofs.Numbers
import Descent.Proofs.Quotation
import Descent.Proofs.Recognition
import Descent.Proofs.RepetitionLoop
import Descent.Proofs.SeparatedLists
import Descent.Proofs.Termination
import Descent.Proofs.Uniform
import Descent.Proofs.Validity
import Descent.Proofs.Verbatim
import Descent.Proofs.Walks
