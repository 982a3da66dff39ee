import Formula.Builtin
import Formula.Expression.Evaluation
import Formula.Expression.Reading
import Formula.Proofs.Binary64.Exponent
import Formula.Proofs.Builtin.Clamping
import Formula.Proofs.Builtin.Factorial
import Formula.Proofs.Decimal.Text
import Formula.Proofs.Evaluation.Agreement
import Formula.Proofs.Evaluation.Callees
import Formula.Proofs.Evaluation.Dependence
import Formula.Proofs.Evaluation.Discovery
import Formula.Proofs.Evaluation.Folding
import Formula.Proofs.Evaluation.SlotUses
import Formula.Proofs.Evaluation.Spellings
import Formula.Proofs.Reading.Calls
import Formula.Proofs.Reading.Dependence
import Formula.Proofs.Reading.Hole
import Formula.Proofs.Reading.Progress
import Formula.Proofs.Reading.Respelling
import Formula.Proofs.Reading.Surroundings
import Formula.Proofs.Sampling.Positions
import Formula.Proofs.Sampling.Tally
import Formula.Proofs.Session.Description
import Formula.Proofs.Session.Reflection
import Formula.Proofs.Writing.RoundTrip
import Formula.Sampling
import Formula.Session
