import Linearization.Config.Document
import Linearization.Proofs.Ilp.FailedCalls
import Linearization.Proofs.Solve.Slots
import Linearization.Proofs.Translation.Agreement
import Linearization.Proofs.Translation.Limits
import Linearization.Proofs.Translation.Registration
import Linearization.Proofs.Translation.Reified
import Linearization.Proofs.Translation.Validation
import Linearization.Solve.Search
import Linearization.Proofs.Expr.Rename
import Linearization.Proofs.Ilp.Exactness
import Linearization.Proofs.Translation.Images
import Linearization.Proofs.Translation.Renaming
import Linearization.Proofs.Translation.Registers
import Linearization.Proofs.Translation.Additions
import Linearization.Proofs.Translation.Order
import Linearization.Proofs.Ilp.Rounding
import Linearization.Proofs.Solve.Objective
import Linearization.Proofs.Translation.Symmetry
import Linearization.Proofs.Expr.Tour
import Linearization.Proofs.Expr.Members
import Linearization.Proofs.Ilp.Literals
import Linearization.Proofs.Translation.Distinct
import Linearization.Proofs.Ilp.Elements
import Linearization.Proofs.Translation.Extrema
import Linearization.Proofs.Expr.Places
import Linearization.Proofs.Translation.Itemwise
import Linearization.Proofs.Ilp.Extent
import Linearization.Proofs.Translation.Linear
import Linearization.Proofs.Translation.NestedParity
