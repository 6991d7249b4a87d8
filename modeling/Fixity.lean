import Fixity.Event
import Fixity.Main
import Fixity.Proofs.RoundTrip
import Fixity.Proofs.ErrorPosition
import Fixity.Proofs.LineErrors
import Fixity.Proofs.Trailing
import Fixity.Proofs.Handling
import Fixity.Proofs.Watching
import Fixity.Proofs.FatalFailures
import Fixity.Proofs.Coherence
import Fixity.Proofs.Backtracking
import Fixity.Proofs.Accounting
import Fixity.Proofs.Termination
import Fixity.Proofs.Extension
import Fixity.Proofs.Grouping
import Fixity.Proofs.Reordering
import Fixity.Proofs.Respelling
import Fixity.Proofs.SourceAppend
import Fixity.Proofs.OperatorTrees
import Fixity.Proofs.WrittenLines
import Fixity.Proofs.TableText
import Fixity.Proofs.Validation
import Fixity.Proofs.Combinators
