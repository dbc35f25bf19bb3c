/-!
# Powers

Powers of numbers are those of the core library, whatever other instances a module sees.
-/

namespace SuperH

@[default_instance 20000]
instance (priority := high) corePow {α : Type} [NatPow α] : Pow α Nat := instPowNat

end SuperH
