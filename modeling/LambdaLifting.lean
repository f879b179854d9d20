import LambdaLifting.Arena.Printer
import LambdaLifting.Program
import LambdaLifting.Proofs.AppendOnly
import LambdaLifting.Proofs.Avoidance
import LambdaLifting.Proofs.Comparison
import LambdaLifting.Proofs.Contraction
import LambdaLifting.Proofs.Discipline
import LambdaLifting.Proofs.Dispatches
import LambdaLifting.Proofs.FirstVisits
import LambdaLifting.Proofs.FreshNames
import LambdaLifting.Proofs.Independence
import LambdaLifting.Proofs.Metadata
import LambdaLifting.Proofs.Printing
import LambdaLifting.Proofs.Resolution
import LambdaLifting.Proofs.Sessions
import LambdaLifting.Proofs.Sharing
import LambdaLifting.Proofs.Termination
