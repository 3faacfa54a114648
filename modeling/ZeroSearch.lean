import ZeroSearch.OpenMethod
import ZeroSearch.Proofs.Boundaries
import ZeroSearch.Proofs.Convergence
import ZeroSearch.Proofs.Entries
import ZeroSearch.Proofs.Legs
import ZeroSearch.Proofs.SignInvariant
import ZeroSearch.Report
import ZeroSearch.Session
import ZeroSearch.Proofs.Acceptance
import ZeroSearch.Proofs.Sessions
import ZeroSearch.Proofs.SignChanges
import ZeroSearch.Proofs.Caps
import ZeroSearch.Proofs.Counter
import ZeroSearch.Proofs.Endings
import ZeroSearch.Proofs.Binary64.Negation
import ZeroSearch.Proofs.Negation
import ZeroSearch.Proofs.FinerWindows
import ZeroSearch.Proofs.Splitting
import ZeroSearch.Proofs.Damping
import ZeroSearch.Proofs.Stagnation
import ZeroSearch.Proofs.Recurrence
import ZeroSearch.Proofs.Validation
import ZeroSearch.Proofs.Resumption
import ZeroSearch.Proofs.ExactHalving
import ZeroSearch.Proofs.Binary64.Division
import ZeroSearch.Proofs.Binary64.Logarithm
import ZeroSearch.Proofs.IterationBound
import ZeroSearch.Proofs.Laziness
