/-!
# AvroDocument.Power

Powers of natural numbers, which scales, digits and bits are counted in.

* `natPower`: the one instance that all modules raise to a power with, whatever algebra is in scope.
-/

namespace AvroDocument

@[default_instance 20000]
instance (priority := high) natPower : Pow Nat Nat := instPowNat

end AvroDocument
