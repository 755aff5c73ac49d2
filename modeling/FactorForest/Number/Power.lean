set_option autoImplicit false

namespace FactorForest

attribute [scoped instance (high)] instPowNat

attribute [default_instance 20000] instPowNat

end FactorForest
