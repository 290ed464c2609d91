import QuantityLayout.Proofs.Registry.Contiguous

set_option autoImplicit false

namespace QuantityLayout.Registry

variable {α : Type} {r : Registry α} {vs : List (Visit α)} {l : Layout}

end QuantityLayout.Registry
