import Tether.Main
import Tether.Proofs.Storage.Lockstep
import Tether.Proofs.Completion
import Tether.Proofs.Unlinking
import Tether.Proofs.Destruction
import Tether.Proofs.Typing
import Tether.Proofs.Serialization
import Tether.Proofs.Enrolment
import Tether.Proofs.Storage.FirstFit
import Tether.Proofs.Exactness
import Tether.Proofs.Aliases
import Tether.Proofs.Compilers
import Tether.Proofs.Options
import Tether.Proofs.Faults
import Tether.Proofs.Declarations
import Tether.Proofs.Prototypes
import Tether.Proofs.Pages
import Tether.Proofs.Counts
import Tether.Proofs.Reissue
import Tether.Proofs.Inspection
import Tether.Proofs.Enumerations
