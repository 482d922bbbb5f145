/-!
# Powers of numbers

The powers in this library are those of natural numbers and integers that the
core library defines. They come before any other instance in scope, so that
bounds such as `2 ^ 63` are one term everywhere, also beside algebra.
-/

namespace ScanTriage

@[default_instance high]
instance (priority := high) instPowNumber {α : Type} [NatPow α] : Pow α Nat := instPowNat

end ScanTriage
