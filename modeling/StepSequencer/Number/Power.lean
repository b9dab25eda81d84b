/-!
# Powers of whole numbers

A power of a natural number or an integer is the one of the core library, whatever other powers are
known where it is written. So a definition means the same in every file that reads it.
-/

namespace StepSequencer

/-- Powers by the core library come before all others. -/
@[default_instance 20000]
instance (priority := 20000) corePow {α : Type} [NatPow α] : Pow α Nat := instPowNat

end StepSequencer
