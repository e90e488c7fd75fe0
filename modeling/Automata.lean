import Automata.Call
import Automata.Display.Grid
import Automata.Draft
import Automata.Error
import Automata.Evaluation
import Automata.Listing.Write
import Automata.Minimization
import Automata.Proofs.Binary.RoundTrip
import Automata.Proofs.Branching
import Automata.Proofs.Consistency
import Automata.Proofs.Idempotence
import Automata.Proofs.Listing.Placement
import Automata.Proofs.Listing.Singletons
import Automata.Proofs.Numbering
import Automata.Proofs.Report
import Automata.Proofs.StateSets
import Automata.Subset
import Automata.Proofs.Minimize.Depth
import Automata.Proofs.Passes
import Automata.Proofs.Merging
import Automata.Proofs.Binary.Buildable
import Automata.Proofs.Indexed.Labels
import Automata.Proofs.Indexed.Dense
import Automata.Proofs.Indexed.Exploration
import Automata.Proofs.Indexed.Marking
import Automata.Proofs.Indexed.Pairs
import Automata.Proofs.Indexed.Symbols
import Automata.Proofs.Grid
import Automata.Proofs.Indexed.Partition
import Automata.Proofs.Indexed.Quotient
import Automata.Proofs.Indexed.Minimization
import Automata.Proofs.Worklist
import Automata.Proofs.Indexed.Register
import Automata.Proofs.Validation
import Automata.Proofs.Interleaving
import Automata.Proofs.Building
import Automata.Proofs.Reordering
import Automata.Proofs.Accounting
import Automata.Proofs.Binary.Truncation
import Automata.Proofs.Enumeration
import Automata.Proofs.Noninterference
import Automata.Proofs.Certificate
