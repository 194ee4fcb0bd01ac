import Wiring.Proofs.Config
import Wiring.Resolver
import Wiring.Summary
import Wiring.Proofs.Fit.Construction
import Wiring.Proofs.Fit.Halting
import Wiring.Proofs.Fit.Idempotent
import Wiring.Proofs.Fit.Recovery
import Wiring.Proofs.Session.Nominal
import Wiring.Proofs.Session.Ranking
import Wiring.Proofs.Session.SpreadBound
import Wiring.Proofs.Session.Spreading
import Wiring.Proofs.Search.Causes
import Wiring.Proofs.Search.Choice
import Wiring.Proofs.Search.Elements
import Wiring.Proofs.Search.Evidence
import Wiring.Proofs.Search.Isolation
import Wiring.Proofs.Search.Pinned
import Wiring.Proofs.Search.Preference
import Wiring.Proofs.Search.Specificity
import Wiring.Proofs.Search.Sealed
import Wiring.Proofs.Search.Shadowing
import Wiring.Proofs.Search.Termination
import Wiring.Proofs.Search.TypeSafety
import Wiring.Proofs.Types.Order
import Wiring.Proofs.Types.Commutation
import Wiring.Proofs.Types.Likeness
import Wiring.Proofs.Session.Specialization
import Wiring.Proofs.Search.Tidy
import Wiring.Proofs.Search.CallSites
import Wiring.Proofs.Search.Snowball
import Wiring.Proofs.Types.Nearest
